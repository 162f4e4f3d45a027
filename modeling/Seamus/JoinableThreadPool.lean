-- `JoinableThreadPool`: tasks under an id, the workers that run them, and the threads that wait
-- for all tasks of an id. A turn is one section of one thread under the mutex, one call on a
-- condition variable, or a task.
import Seamus.Library.Interleaving
import Mathlib.Algebra.Order.Group.Multiset
import Mathlib.Logic.Function.Basic

open interleaving

namespace seamus.joinable_thread_pool

/-! ## The source functions, cut where threads meet -/

/-- A task, by the number of the `submit` that brought it. -/
structure TaggedTask where
  id : Int
  fn : Nat
  deriving DecidableEq

inductive Worker where
  /-- About to look at the predicate of `worker_cv.wait`, under the mutex. -/
  | awake
  /-- In `worker_cv.wait`, until someone wakes it. -/
  | asleep
  /-- In `tt.fn()`. -/
  | running (tt : TaggedTask)
  /-- After the task, before the lock. -/
  | ran (tt : TaggedTask)
  /-- About to call `join_cv.notify_all`. -/
  | counted
  | exited
  deriving DecidableEq

/-- Where a call of `join` is. -/
inductive Wait where
  /-- About to look at the predicate of `join_cv.wait`, under the mutex. -/
  | awake
  /-- In `join_cv.wait`, until someone wakes it. -/
  | asleep
  | returned
  deriving DecidableEq

/-- A call of `join`. -/
structure Joiner where
  id : Int
  /-- The tasks of the id that were submitted before the call. -/
  before : List TaggedTask
  wait : Wait
  deriving DecidableEq

/-- The pool, the threads, and what has happened so far. -/
structure System where
  tasks : List TaggedTask
  waitgroups : Int → Option Nat
  exitFlag : Bool
  workers : List Worker
  joiners : List Joiner
  /-- The calls of `submit` that are about to notify. -/
  notifying : Nat
  /-- The destructor has notified all. -/
  notified : Bool
  submitted : List TaggedTask
  /-- One entry for each run of a task. -/
  runs : List TaggedTask
  /-- The tasks that have run and been counted down. -/
  finished : List TaggedTask

/-- `JoinableThreadPool(n)`. -/
def initial (n : Nat) : System :=
  ⟨[], fun _ => none, false, List.replicate n .awake, [], 0, false, [], [], []⟩

def Worker.isAsleep : Worker → Bool
  | .asleep => true
  | _ => false

def Worker.wake : Worker → Worker
  | .asleep => .awake
  | p => p

def Joiner.wake (j : Joiner) : Joiner :=
  match j.wait with
  | .asleep => { j with wait := .awake }
  | .awake | .returned => j

def setWorker (w : Nat) (p : Worker) (s : System) : System := { s with workers := s.workers.set w p }

def setJoiner (k : Nat) (j : Joiner) (s : System) : System := { s with joiners := s.joiners.set k j }

/-- `submit` up to its notification. -/
def submit (id : Int) (s : System) : System :=
  let tt : TaggedTask := ⟨id, s.submitted.length⟩
  { s with
    tasks := s.tasks ++ [tt]
    waitgroups := Function.update s.waitgroups id (some ((s.waitgroups id).getD 0 + 1))
    notifying := s.notifying + 1
    submitted := s.submitted ++ [tt] }

/-- `worker_cv.notify_one`, which wakes some sleeper when there is one. -/
def notifyOne (w : Nat) (s : System) : Option System :=
  if s.notifying = 0 then none
  else if s.workers.any Worker.isAsleep then
    if s.workers[w]? = some .asleep then
      some (setWorker w .awake { s with notifying := s.notifying - 1 })
    else none
  else some { s with notifying := s.notifying - 1 }

/-- The start of `join`, up to its wait. -/
def callJoin (id : Int) (s : System) : System :=
  { s with joiners := s.joiners ++ [⟨id, s.submitted.filter (·.id = id), .awake⟩] }

/-- The predicate of the wait. -/
def isDone (id : Int) (s : System) : Bool := s.waitgroups id = none || s.waitgroups id = some 0

/-- A thread in `join` looks at the predicate, and returns or sleeps. -/
def joinStep (k : Nat) (s : System) : Option System :=
  match s.joiners[k]? with
  | none => none
  | some j =>
    match j.wait with
    | .asleep | .returned => none
    | .awake =>
      if isDone j.id s then
        some (setJoiner k { j with wait := .returned }
          { s with waitgroups := Function.update s.waitgroups j.id none })
      else some (setJoiner k { j with wait := .asleep } s)

/-- A worker wakes up though nobody has notified it. -/
def wakeWorker (w : Nat) (s : System) : Option System :=
  if s.workers[w]? = some .asleep then some (setWorker w .awake s) else none

/-- A thread in `join` wakes up though nobody has notified it. -/
def wakeJoiner (k : Nat) (s : System) : Option System :=
  match s.joiners[k]? with
  | none => none
  | some j => if j.wait = .asleep then some (setJoiner k { j with wait := .awake } s) else none

/-- The last section of a turn of `worker_loop` under the mutex. -/
def countDown (tt : TaggedTask) (s : System) : System :=
  { s with
    waitgroups :=
      match s.waitgroups tt.id with
      | some count => Function.update s.waitgroups tt.id (some (count - 1))
      | none => s.waitgroups
    finished := s.finished ++ [tt] }

/-- `join_cv.notify_all`. -/
def notifyJoiners (s : System) : System := { s with joiners := s.joiners.map Joiner.wake }

/-- How a task ends. An exception is caught and ignored. -/
inductive Ending where
  | returned | thrown

/-- The next section of a worker. -/
def workerStep (w : Nat) (ending : Ending) (s : System) : Option System :=
  match s.workers[w]? with
  | none | some .asleep | some .exited => none
  | some .awake =>
    match s.tasks with
    | [] => some (setWorker w (if s.exitFlag then .exited else .asleep) s)
    | tt :: tasks => some (setWorker w (.running tt) { s with tasks })
  | some (.running tt) =>
    match ending with
    | .returned | .thrown => some (setWorker w (.ran tt) { s with runs := s.runs ++ [tt] })
  | some (.ran tt) => some (setWorker w .counted (countDown tt s))
  | some .counted => some (setWorker w .awake (notifyJoiners s))

/-- The first section of the destructor. -/
def setExit (s : System) : Option System :=
  if s.exitFlag then none else some { s with exitFlag := true }

/-- `worker_cv.notify_all` in the destructor. -/
def notifyAll (s : System) : Option System :=
  if s.exitFlag ∧ s.notified = false then
    some { s with workers := s.workers.map Worker.wake, notified := true }
  else none

inductive Turn where
  | submit (id : Int)
  | notify (w : Nat)
  | callJoin (id : Int)
  | join (k : Nat)
  | work (w : Nat) (ending : Ending)
  | wakeWorker (w : Nat)
  | wakeJoiner (k : Nat)
  | exit
  | notifyAll

def step (turn : Turn) (s : System) : Option System :=
  match turn with
  | .submit id => some (submit id s)
  | .notify w => notifyOne w s
  | .callJoin id => some (callJoin id s)
  | .join k => joinStep k s
  | .work w ending => workerStep w ending s
  | .wakeWorker w => wakeWorker w s
  | .wakeJoiner k => wakeJoiner k s
  | .exit => setExit s
  | .notifyAll => notifyAll s

/-! ## What a turn can do -/

inductive Moves (s : System) : Turn → System → Prop where
  | submit (id : Int) : Moves s (.submit id) (submit id s)
  | notify {w : Nat} (hn : 0 < s.notifying) (hw : s.workers[w]? = some .asleep) :
      Moves s (.notify w) (setWorker w .awake { s with notifying := s.notifying - 1 })
  | notifyNobody {w : Nat} (hn : 0 < s.notifying) (hnobody : .asleep ∉ s.workers) :
      Moves s (.notify w) { s with notifying := s.notifying - 1 }
  | callJoin (id : Int) : Moves s (.callJoin id) (callJoin id s)
  | returnJoin {k : Nat} {j : Joiner} (hj : s.joiners[k]? = some j) (hawake : j.wait = .awake)
      (hdone : isDone j.id s = true) :
      Moves s (.join k) (setJoiner k { j with wait := .returned }
        { s with waitgroups := Function.update s.waitgroups j.id none })
  | sleepJoin {k : Nat} {j : Joiner} (hj : s.joiners[k]? = some j) (hawake : j.wait = .awake)
      (hdone : isDone j.id s = false) :
      Moves s (.join k) (setJoiner k { j with wait := .asleep } s)
  | take {w : Nat} {ending : Ending} {tt : TaggedTask} {tasks : List TaggedTask}
      (hw : s.workers[w]? = some .awake) (htasks : s.tasks = tt :: tasks) :
      Moves s (.work w ending) (setWorker w (.running tt) { s with tasks })
  | sleep {w : Nat} {ending : Ending} (hw : s.workers[w]? = some .awake) (htasks : s.tasks = [])
      (hexit : s.exitFlag = false) : Moves s (.work w ending) (setWorker w .asleep s)
  | leave {w : Nat} {ending : Ending} (hw : s.workers[w]? = some .awake) (htasks : s.tasks = [])
      (hexit : s.exitFlag = true) : Moves s (.work w ending) (setWorker w .exited s)
  | run {w : Nat} {ending : Ending} {tt : TaggedTask} (hw : s.workers[w]? = some (.running tt)) :
      Moves s (.work w ending) (setWorker w (.ran tt) { s with runs := s.runs ++ [tt] })
  | count {w : Nat} {ending : Ending} {tt : TaggedTask} (hw : s.workers[w]? = some (.ran tt)) :
      Moves s (.work w ending) (setWorker w .counted (countDown tt s))
  | notifyJoiners {w : Nat} {ending : Ending} (hw : s.workers[w]? = some .counted) :
      Moves s (.work w ending) (setWorker w .awake (notifyJoiners s))
  | wakeWorker {w : Nat} (hw : s.workers[w]? = some .asleep) :
      Moves s (.wakeWorker w) (setWorker w .awake s)
  | wakeJoiner {k : Nat} {j : Joiner} (hj : s.joiners[k]? = some j) (hasleep : j.wait = .asleep) :
      Moves s (.wakeJoiner k) (setJoiner k { j with wait := .awake } s)
  | exit (hexit : s.exitFlag = false) : Moves s .exit { s with exitFlag := true }
  | notifyAll (hexit : s.exitFlag = true) (hn : s.notified = false) :
      Moves s .notifyAll { s with workers := s.workers.map Worker.wake, notified := true }

theorem any_isAsleep {workers : List Worker} :
    workers.any Worker.isAsleep = true ↔ .asleep ∈ workers := by
  rw [List.any_eq_true]
  refine ⟨fun ⟨p, hp, hasleep⟩ => ?_, fun h => ⟨_, h, rfl⟩⟩
  cases p <;> cases hasleep
  exact hp

section Turns

variable {s s' : System} {turn : Turn}

theorem workerStep_moves {w : Nat} {ending : Ending} (h : workerStep w ending s = some s') :
    Moves s (.work w ending) s' := by
  unfold workerStep at h
  cases hw : s.workers[w]? with
  | none =>
    rw [hw] at h
    cases h
  | some p =>
    rw [hw] at h
    cases p with
    | asleep => cases h
    | exited => cases h
    | awake =>
      cases htasks : s.tasks with
      | nil =>
        simp only [htasks] at h
        cases hexit : s.exitFlag <;> rw [hexit] at h <;> cases h
        · exact .sleep hw htasks hexit
        · exact .leave hw htasks hexit
      | cons tt tasks =>
        simp only [htasks] at h
        cases h
        exact .take hw htasks
    | running tt =>
      cases ending <;> cases h <;> exact .run hw
    | ran tt =>
      cases h
      exact .count hw
    | counted =>
      cases h
      exact .notifyJoiners hw

theorem notifyOne_moves {w : Nat} (h : notifyOne w s = some s') : Moves s (.notify w) s' := by
  unfold notifyOne at h
  split_ifs at h with hnone hsome hw
  · cases h
    exact .notify (Nat.pos_of_ne_zero hnone) hw
  · cases h
    exact .notifyNobody (Nat.pos_of_ne_zero hnone) fun hmem => hsome (any_isAsleep.mpr hmem)

theorem joinStep_moves {k : Nat} (h : joinStep k s = some s') : Moves s (.join k) s' := by
  unfold joinStep at h
  cases hj : s.joiners[k]? with
  | none =>
    rw [hj] at h
    cases h
  | some j =>
    simp only [hj] at h
    cases hwait : j.wait with
    | asleep => simp [hwait] at h
    | returned => simp [hwait] at h
    | awake =>
      simp only [hwait] at h
      split_ifs at h with hdone
      · cases h
        exact .returnJoin hj hwait hdone
      · cases h
        exact .sleepJoin hj hwait (Bool.eq_false_iff.mpr hdone)

theorem wakeJoiner_moves {k : Nat} (h : wakeJoiner k s = some s') :
    Moves s (.wakeJoiner k) s' := by
  unfold wakeJoiner at h
  split at h
  · cases h
  · rename_i j hj
    split_ifs at h with hasleep
    cases h
    exact .wakeJoiner hj hasleep

theorem step_moves (h : step turn s = some s') : Moves s turn s' := by
  cases turn with
  | submit id =>
    cases h
    exact .submit id
  | notify w => exact notifyOne_moves h
  | callJoin id =>
    cases h
    exact .callJoin id
  | join k => exact joinStep_moves h
  | work w ending => exact workerStep_moves h
  | wakeWorker w =>
    simp only [step, wakeWorker] at h
    split_ifs at h with hw
    cases h
    exact .wakeWorker hw
  | wakeJoiner k => exact wakeJoiner_moves h
  | exit =>
    simp only [step, setExit] at h
    split_ifs at h with hexit
    cases h
    exact .exit (Bool.eq_false_iff.mpr hexit)
  | notifyAll =>
    simp only [step, notifyAll] at h
    split_ifs at h with hall
    cases h
    exact .notifyAll hall.1 hall.2

end Turns

/-! ## Where a task is -/

/-- The task that a worker has taken and not yet run. -/
def taken : Worker → Multiset TaggedTask
  | .running tt => {tt}
  | _ => 0

/-- The task that a worker has run and not yet counted down. -/
def uncounted : Worker → Multiset TaggedTask
  | .ran tt => {tt}
  | _ => 0

def unrun (s : System) : Multiset TaggedTask := s.tasks + total taken s.workers

def unfinished (s : System) : Multiset TaggedTask := unrun s + total uncounted s.workers

/-- Every task is somewhere once, and the counters count those that are not finished. -/
structure Inv (s : System) : Prop where
  numbered : s.submitted.map TaggedTask.fn = List.range s.submitted.length
  unrun_add : unrun s + s.runs = s.submitted
  uncounted_add : total uncounted s.workers + s.finished = s.runs
  counter : ∀ id, (s.waitgroups id).getD 0 = (unfinished s).countP (·.id = id)
  before : ∀ j ∈ s.joiners, ∀ tt ∈ j.before, tt ∈ s.submitted ∧ tt.id = j.id
  joined : ∀ j ∈ s.joiners, j.wait = .returned → ∀ tt ∈ j.before, tt ∈ s.finished

section Places

variable {s : System}

theorem Inv.submitted_nodup (inv : Inv s) : s.submitted.Nodup := by
  have hnodup : (s.submitted.map TaggedTask.fn).Nodup := by
    rw [inv.numbered]
    exact List.nodup_range
  exact hnodup.of_map

theorem Inv.unfinished_add (inv : Inv s) : unfinished s + s.finished = s.submitted := by
  unfold unfinished
  rw [add_assoc, inv.uncounted_add, inv.unrun_add]

theorem isDone_iff_zero (id : Int) (s : System) :
    isDone id s = true ↔ (s.waitgroups id).getD 0 = 0 := by
  unfold isDone
  cases s.waitgroups id <;> simp

/-- The wait of a `join` is over exactly when all tasks of its id are finished. -/
theorem Inv.isDone_iff (inv : Inv s) (id : Int) :
    isDone id s = true ↔ ∀ tt ∈ s.submitted, tt.id = id → tt ∈ s.finished := by
  rw [isDone_iff_zero, inv.counter id, Multiset.countP_eq_zero]
  constructor
  · intro hnone tt htt hid
    rw [← Multiset.mem_coe, ← inv.unfinished_add, Multiset.mem_add] at htt
    rcases htt with htt | htt
    · exact absurd hid (hnone tt htt)
    · exact Multiset.mem_coe.mp htt
  · intro hall tt htt hid
    have hnodup : (unfinished s + s.finished).Nodup := by
      rw [inv.unfinished_add]
      exact Multiset.coe_nodup.mpr inv.submitted_nodup
    have hsubmitted : tt ∈ s.submitted := by
      rw [← Multiset.mem_coe, ← inv.unfinished_add]
      exact Multiset.mem_add.mpr (.inl htt)
    exact Multiset.disjoint_left.mp (Multiset.nodup_add.mp hnodup).2.2 htt
      (Multiset.mem_coe.mpr (hall tt hsubmitted hid))

end Places

theorem countP_add_task (tt : TaggedTask) (id : Int) (m : Multiset TaggedTask) :
    ({tt} + m).countP (·.id = id) = m.countP (·.id = id) + if tt.id = id then 1 else 0 := by
  rw [Multiset.singleton_add, Multiset.countP_cons]

/-! ## One turn -/

theorem inv_initial (n : Nat) : Inv (initial n) := by
  have htaken : total taken (List.replicate n Worker.awake) = 0 :=
    total_eq_zero taken fun p hp => by rw [List.eq_of_mem_replicate hp]; rfl
  have huncounted : total uncounted (List.replicate n Worker.awake) = 0 :=
    total_eq_zero uncounted fun p hp => by rw [List.eq_of_mem_replicate hp]; rfl
  unfold initial
  constructor
  · rfl
  · unfold unrun
    simp only [htaken]
    rfl
  · simp only [huncounted]
    rfl
  · intro id
    unfold unfinished unrun
    simp only [htaken, huncounted]
    rfl
  · exact fun _ hj => nomatch hj
  · exact fun _ hj => nomatch hj

section Tasks

variable {s s' : System} {turn : Turn}

theorem inv_submit (id : Int) (inv : Inv s) : Inv (submit id s) := by
  let tt : TaggedTask := ⟨id, s.submitted.length⟩
  have hunrun : unrun (submit id s) = {tt} + unrun s := by
    unfold unrun submit
    simp only [← Multiset.coe_add, Multiset.coe_singleton]
    abel
  constructor
  · unfold submit
    simp only [List.map_append, List.map_cons, List.map_nil, List.length_append,
      List.length_singleton, List.range_succ, inv.numbered]
  · rw [hunrun]
    unfold submit
    simp only [← Multiset.coe_add, Multiset.coe_singleton, ← inv.unrun_add]
    abel
  · exact inv.uncounted_add
  · intro id'
    have hcounter := inv.counter id'
    have hunfinished : unfinished (submit id s) = {tt} + unfinished s := by
      unfold unfinished
      rw [hunrun, add_assoc]
      rfl
    rw [hunfinished, countP_add_task, ← hcounter]
    unfold submit
    by_cases heq : id' = id
    · subst heq
      simp [tt]
    · simp [tt, heq, Ne.symm heq]
  · intro j hj x hx
    obtain ⟨hmem, hid⟩ := inv.before j hj x hx
    exact ⟨List.mem_append_left _ hmem, hid⟩
  · exact inv.joined

theorem inv_callJoin (id : Int) (inv : Inv s) : Inv (callJoin id s) := by
  refine ⟨inv.numbered, inv.unrun_add, inv.uncounted_add, inv.counter, ?_, ?_⟩
  · intro j hj tt htt
    rcases List.mem_append.mp hj with hj | hj
    · exact inv.before j hj tt htt
    · rw [List.mem_singleton.mp hj] at htt ⊢
      obtain ⟨hmem, hid⟩ := List.mem_filter.mp htt
      exact ⟨hmem, of_decide_eq_true hid⟩
  · intro j hj hreturned
    rcases List.mem_append.mp hj with hj | hj
    · exact inv.joined j hj hreturned
    · rw [List.mem_singleton.mp hj] at hreturned
      cases hreturned

/-- Threads in `join` fall asleep or wake up. -/
theorem Inv.rejoined (inv : Inv s) {joiners : List Joiner}
    (hjoiners : ∀ j ∈ joiners, ∃ j' ∈ s.joiners, j.id = j'.id ∧ j.before = j'.before ∧
      (j.wait = .returned → j'.wait = .returned)) : Inv { s with joiners } := by
  refine ⟨inv.numbered, inv.unrun_add, inv.uncounted_add, inv.counter, ?_, ?_⟩
  · intro j hj tt htt
    obtain ⟨j', hj', hid, hbefore, _⟩ := hjoiners j hj
    rw [hid]
    exact inv.before j' hj' tt (hbefore ▸ htt)
  · intro j hj hreturned tt htt
    obtain ⟨j', hj', _, hbefore, hback⟩ := hjoiners j hj
    exact inv.joined j' hj' (hback hreturned) tt (hbefore ▸ htt)

/-- One thread in `join` falls asleep or wakes up. -/
theorem Inv.setJoiner (inv : Inv s) {k : Nat} {j : Joiner} {wait : Wait}
    (hj : s.joiners[k]? = some j) (hwait : wait ≠ .returned) :
    Inv (setJoiner k { j with wait } s) := by
  apply inv.rejoined
  intro j' hj'
  rcases List.mem_or_eq_of_mem_set hj' with hj' | rfl
  · exact ⟨j', hj', rfl, rfl, id⟩
  · exact ⟨j, List.mem_of_getElem? hj, rfl, rfl, fun hreturned => absurd hreturned hwait⟩

theorem wake_returned {j : Joiner} (h : j.wake.wait = .returned) : j.wait = .returned := by
  unfold Joiner.wake at h
  cases hwait : j.wait <;> simp_all

theorem wake_id (j : Joiner) : j.wake.id = j.id := by
  unfold Joiner.wake
  cases j.wait <;> rfl

theorem wake_before (j : Joiner) : j.wake.before = j.before := by
  unfold Joiner.wake
  cases j.wait <;> rfl

theorem Inv.joinersWoken (inv : Inv s) : Inv (notifyJoiners s) := by
  apply inv.rejoined
  intro j hj
  obtain ⟨j', hj', rfl⟩ := List.mem_map.mp hj
  exact ⟨j', hj', wake_id j', wake_before j', wake_returned⟩

theorem Inv.joinReturned (inv : Inv s) {k : Nat} {j : Joiner} (hj : s.joiners[k]? = some j)
    (hdone : isDone j.id s = true) :
    Inv (joinable_thread_pool.setJoiner k { j with wait := .returned }
      { s with waitgroups := Function.update s.waitgroups j.id none }) := by
  have hall := (inv.isDone_iff j.id).mp hdone
  have hmem : j ∈ s.joiners := List.mem_of_getElem? hj
  refine ⟨inv.numbered, inv.unrun_add, inv.uncounted_add, ?_, ?_, ?_⟩
  · intro id
    refine Eq.trans ?_ (inv.counter id)
    change (Function.update s.waitgroups j.id none id).getD 0 = (s.waitgroups id).getD 0
    by_cases heq : id = j.id
    · subst heq
      rw [Function.update_self, (isDone_iff_zero j.id s).mp hdone]
      rfl
    · rw [Function.update_of_ne heq]
  · intro j' hj' tt htt
    rcases List.mem_or_eq_of_mem_set hj' with hj' | rfl
    · exact inv.before j' hj' tt htt
    · exact inv.before j hmem tt htt
  · intro j' hj' hreturned tt htt
    rcases List.mem_or_eq_of_mem_set hj' with hj' | rfl
    · exact inv.joined j' hj' hreturned tt htt
    · obtain ⟨hsubmitted, hid⟩ := inv.before j hmem tt htt
      exact hall tt hsubmitted hid

/-- The counter of the id of a task goes down by one when the task is finished. -/
theorem countDown_counter {tt : TaggedTask} {m : Multiset TaggedTask}
    (hcounter : ∀ id, (s.waitgroups id).getD 0 = ({tt} + m).countP (·.id = id)) (id : Int) :
    ((countDown tt s).waitgroups id).getD 0 = m.countP (·.id = id) := by
  have hid := hcounter id
  rw [countP_add_task] at hid
  have htt := hcounter tt.id
  rw [countP_add_task, if_pos rfl] at htt
  unfold countDown
  cases hcount : s.waitgroups tt.id with
  | none =>
    rw [hcount] at htt
    exact absurd htt (Nat.succ_ne_zero _).symm
  | some count =>
    rw [hcount, Option.getD_some] at htt
    simp only
    by_cases heq : id = tt.id
    · subst heq
      rw [Function.update_self, Option.getD_some, htt, Nat.add_sub_cancel]
    · rw [if_neg (Ne.symm heq), Nat.add_zero] at hid
      rw [Function.update_of_ne heq, hid]

/-- Workers go on, or one takes a task out of the queue. -/
theorem Inv.moved (inv : Inv s) {tasks : List TaggedTask} {workers : List Worker}
    (hunrun : (tasks : Multiset TaggedTask) + total taken workers = unrun s)
    (huncounted : total uncounted workers = total uncounted s.workers) :
    Inv { s with tasks, workers } := by
  have hunrun' : unrun { s with tasks, workers } = unrun s := hunrun
  have hunfinished : unfinished { s with tasks, workers } = unfinished s := by
    unfold unfinished
    rw [hunrun', huncounted]
  refine ⟨inv.numbered, ?_, ?_, fun id => ?_, inv.before, inv.joined⟩
  · rw [hunrun']
    exact inv.unrun_add
  · rw [huncounted]
    exact inv.uncounted_add
  · rw [hunfinished]
    exact inv.counter id

/-- A worker goes on that has no task before and after. -/
theorem Inv.idled (inv : Inv s) {w : Nat} {p p' : Worker} (hw : s.workers[w]? = some p)
    (htaken : taken p' = taken p) (huncounted : uncounted p' = uncounted p) :
    Inv (setWorker w p' s) :=
  inv.moved (congrArg ((s.tasks : Multiset TaggedTask) + ·) (total_keep taken hw htaken))
    (total_keep uncounted hw huncounted)

theorem Inv.take (inv : Inv s) {w : Nat} {tt : TaggedTask} {tasks : List TaggedTask}
    (hw : s.workers[w]? = some .awake) (htasks : s.tasks = tt :: tasks) :
    Inv (setWorker w (.running tt) { s with tasks }) := by
  apply inv.moved
  · have htaken : total taken (s.workers.set w (.running tt)) = {tt} + total taken s.workers :=
      total_gain taken hw (add_zero _).symm
    unfold unrun
    rw [htaken, htasks, ← Multiset.cons_coe, ← Multiset.singleton_add]
    abel
  · exact total_keep uncounted hw rfl

/-- A task has run. -/
theorem Inv.ran (inv : Inv s) {w : Nat} {tt : TaggedTask}
    (hw : s.workers[w]? = some (.running tt)) :
    Inv (setWorker w (.ran tt) { s with runs := s.runs ++ [tt] }) := by
  have htaken : {tt} + total taken (s.workers.set w (.ran tt)) = total taken s.workers :=
    total_lose taken hw (add_zero _).symm
  have huncounted : total uncounted (s.workers.set w (.ran tt)) =
      {tt} + total uncounted s.workers := total_gain uncounted hw (add_zero _).symm
  have hunrun := inv.unrun_add
  have hruns := inv.uncounted_add
  unfold unrun at hunrun
  rw [← htaken] at hunrun
  refine ⟨inv.numbered, ?_, ?_, fun id => ?_, inv.before, inv.joined⟩
  · unfold unrun setWorker
    simp only [← Multiset.coe_add, Multiset.coe_singleton]
    rw [← hunrun]
    abel
  · unfold setWorker
    simp only [huncounted, ← Multiset.coe_add, Multiset.coe_singleton, ← hruns]
    abel
  · refine (inv.counter id).trans ?_
    congr 1
    unfold unfinished unrun setWorker
    simp only [huncounted, ← htaken]
    abel

/-- A task is counted down. -/
theorem Inv.counted (inv : Inv s) {w : Nat} {tt : TaggedTask}
    (hw : s.workers[w]? = some (.ran tt)) : Inv (setWorker w .counted (countDown tt s)) := by
  have htaken : total taken (s.workers.set w .counted) = total taken s.workers :=
    total_keep taken hw rfl
  have huncounted : {tt} + total uncounted (s.workers.set w .counted) =
      total uncounted s.workers := total_lose uncounted hw (add_zero _).symm
  have hunrun : unrun (setWorker w .counted (countDown tt s)) = unrun s :=
    congrArg ((s.tasks : Multiset TaggedTask) + ·) htaken
  have hunfinished : {tt} + unfinished (setWorker w .counted (countDown tt s)) = unfinished s := by
    unfold unfinished
    rw [hunrun, ← huncounted]
    exact add_left_comm _ _ _
  have hruns := inv.uncounted_add
  rw [← huncounted] at hruns
  refine ⟨inv.numbered, ?_, ?_, ?_, inv.before, ?_⟩
  · rw [hunrun]
    exact inv.unrun_add
  · refine Eq.trans ?_ hruns
    unfold setWorker countDown
    simp only [← Multiset.coe_add, Multiset.coe_singleton]
    abel
  · have hcounter := inv.counter
    rw [← hunfinished] at hcounter
    exact countDown_counter hcounter
  · exact fun j hj hreturned x hx => List.mem_append_left _ (inv.joined j hj hreturned x hx)

theorem taken_wake (p : Worker) : taken p.wake = taken p := by
  cases p <;> rfl

theorem uncounted_wake (p : Worker) : uncounted p.wake = uncounted p := by
  cases p <;> rfl

/-- A count of notifications, and the flags of the destructor, are of no account. -/
theorem Inv.flagged (inv : Inv s) (notifying : Nat) (exitFlag notified : Bool) :
    Inv { s with notifying, exitFlag, notified } :=
  ⟨inv.numbered, inv.unrun_add, inv.uncounted_add, inv.counter, inv.before, inv.joined⟩

theorem inv_step (inv : Inv s) (h : step turn s = some s') : Inv s' := by
  cases step_moves h with
  | submit id => exact inv_submit id inv
  | notify hn hw => exact (inv.flagged _ _ _).idled hw rfl rfl
  | notifyNobody hn hnobody => exact inv.flagged _ _ _
  | callJoin id => exact inv_callJoin id inv
  | returnJoin hj hawake hdone => exact inv.joinReturned hj hdone
  | sleepJoin hj hawake hdone => exact inv.setJoiner hj (by simp)
  | take hw htasks => exact inv.take hw htasks
  | sleep hw htasks hexit => exact inv.idled hw rfl rfl
  | leave hw htasks hexit => exact inv.idled hw rfl rfl
  | run hw => exact inv.ran hw
  | count hw => exact inv.counted hw
  | notifyJoiners hw => exact inv.joinersWoken.idled hw rfl rfl
  | wakeWorker hw => exact inv.idled hw rfl rfl
  | wakeJoiner hj hasleep => exact inv.setJoiner hj (by simp)
  | exit hexit => exact inv.flagged _ _ _
  | notifyAll hexit hn =>
    have hwoken : Inv { s with workers := s.workers.map Worker.wake } :=
      inv.moved (congrArg ((s.tasks : Multiset TaggedTask) + ·)
        (total_map taken Worker.wake taken_wake s.workers))
        (total_map uncounted Worker.wake uncounted_wake s.workers)
    exact hwoken.flagged _ _ _

end Tasks

/-! ## Who is woken -/

/-- A worker that is about to look at the queue. -/
def aboutToLook : Worker → Nat
  | .awake => 1
  | _ => 0

/-- No wakeup is lost. -/
structure Watched (s : System) : Prop where
  /-- A worker sleeps only while each queued task has a notification to come or a worker that will
  look. -/
  workers : .asleep ∈ s.workers → s.tasks.length ≤ s.notifying + total aboutToLook s.workers
  /-- A `join` whose counter is at 0 sleeps only while a worker is about to notify. -/
  joiners : ∀ j ∈ s.joiners, j.wait = .asleep → isDone j.id s = true → .counted ∈ s.workers

theorem watched_initial (n : Nat) : Watched (initial n) :=
  ⟨fun hmem => (nomatch List.eq_of_mem_replicate hmem), fun _ hj => nomatch hj⟩

section Wakeups

variable {s s' : System} {turn : Turn}

theorem isDone_of_submit {id id' : Int} (h : isDone id' (submit id s) = true) :
    isDone id' s = true := by
  rw [isDone_iff_zero] at h ⊢
  unfold submit at h
  by_cases heq : id' = id
  · subst heq
    simp at h
  · simpa [heq] using h

theorem Watched.pushed (h : Watched s) (id : Int) : Watched (submit id s) := by
  refine ⟨fun hmem => ?_, fun j hj hasleep hdone => h.joiners j hj hasleep (isDone_of_submit hdone)⟩
  have hwatched := h.workers hmem
  unfold submit
  simp only [List.length_append, List.length_singleton]
  omega

/-- A worker goes on that is not about to notify. -/
theorem Watched.moved (h : Watched s) {w : Nat} {p p' : Worker} {tasks runs : List TaggedTask}
    {notifying : Nat} (hw : s.workers[w]? = some p) (hp : p ≠ .counted)
    (hwatched : .asleep ∈ s.workers.set w p' →
      tasks.length ≤ notifying + total aboutToLook (s.workers.set w p')) :
    Watched (setWorker w p' { s with tasks, notifying, runs }) :=
  ⟨hwatched, fun j hj hasleep hdone =>
    mem_set_of_ne p' hw (h.joiners j hj hasleep hdone) (Ne.symm hp)⟩

/-- A sleeper wakes up, by a notification or without one. -/
theorem Watched.woken (h : Watched s) {w notifying : Nat} (hw : s.workers[w]? = some .asleep)
    (hn : s.notifying ≤ notifying + 1) : Watched (setWorker w .awake { s with notifying }) := by
  refine h.moved hw (by simp) fun _ => ?_
  have hlook : total aboutToLook (s.workers.set w .awake) = 1 + total aboutToLook s.workers :=
    total_gain aboutToLook hw rfl
  have hwatched := h.workers (List.mem_of_getElem? hw)
  omega

/-- A worker takes a task. -/
theorem Watched.taken (h : Watched s) {w : Nat} {tt : TaggedTask} {tasks : List TaggedTask}
    (hw : s.workers[w]? = some .awake) (htasks : s.tasks = tt :: tasks) :
    Watched (setWorker w (.running tt) { s with tasks }) := by
  refine h.moved hw (by simp) fun hmem => ?_
  have hlook : 1 + total aboutToLook (s.workers.set w (.running tt)) =
      total aboutToLook s.workers := total_lose aboutToLook hw rfl
  rcases List.mem_or_eq_of_mem_set hmem with hmem | heq
  · have hwatched := h.workers hmem
    rw [htasks, List.length_cons] at hwatched
    omega
  · cases heq

/-- A worker goes on that is not about to look at the queue, and does not go to sleep. -/
theorem Watched.kept (h : Watched s) {w : Nat} {p p' : Worker} (hw : s.workers[w]? = some p)
    (hlook : aboutToLook p' = aboutToLook p) (hp' : p' ≠ .asleep)
    (hmem : .asleep ∈ s.workers.set w p') :
    s.tasks.length ≤ s.notifying + total aboutToLook (s.workers.set w p') := by
  rw [total_keep aboutToLook hw hlook]
  rcases List.mem_or_eq_of_mem_set hmem with hmem | heq
  · exact h.workers hmem
  · exact absurd heq.symm hp'

theorem Watched.counted (h : Watched s) {w : Nat} {tt : TaggedTask}
    (hw : s.workers[w]? = some (.ran tt)) :
    Watched (setWorker w .counted (countDown tt s)) :=
  ⟨h.kept hw rfl (by simp),
    fun _ _ _ _ => List.mem_set (List.getElem?_eq_some_iff.mp hw).1 _⟩

theorem wake_not_asleep (j : Joiner) : j.wake.wait ≠ .asleep := by
  unfold Joiner.wake
  cases hwait : j.wait <;> simp [hwait]

theorem Watched.joinersWoken (h : Watched s) {w : Nat} (hw : s.workers[w]? = some .counted) :
    Watched (setWorker w .awake (notifyJoiners s)) := by
  refine ⟨fun hmem => ?_, fun j hj hasleep => ?_⟩
  · have hlook : total aboutToLook (s.workers.set w .awake) = 1 + total aboutToLook s.workers :=
      total_gain aboutToLook hw rfl
    change s.tasks.length ≤ s.notifying + total aboutToLook (s.workers.set w .awake)
    rcases List.mem_or_eq_of_mem_set hmem with hmem | heq
    · have hwatched := h.workers hmem
      omega
    · cases heq
  · obtain ⟨j', _, rfl⟩ := List.mem_map.mp hj
    exact absurd hasleep (wake_not_asleep j')

/-- A thread in `join` goes on, where no counter comes to 0 that was not there. -/
theorem Watched.setJoiner (h : Watched s) {k : Nat} {j : Joiner}
    {waitgroups : Int → Option Nat}
    (hown : j.wait = .asleep → isDone j.id { s with waitgroups } = false)
    (hdone : ∀ id, isDone id { s with waitgroups } = true → isDone id s = true) :
    Watched (setJoiner k j { s with waitgroups }) := by
  refine ⟨h.workers, fun j' hj' hasleep hzero => ?_⟩
  rcases List.mem_or_eq_of_mem_set hj' with hj' | rfl
  · exact h.joiners j' hj' hasleep (hdone j'.id hzero)
  · exact absurd hzero (Bool.eq_false_iff.mp (hown hasleep))

theorem isDone_of_erased {id id' : Int} (hid : isDone id s = true)
    (h : isDone id' { s with waitgroups := Function.update s.waitgroups id none } = true) :
    isDone id' s = true := by
  by_cases heq : id' = id
  · rw [heq]
    exact hid
  · rw [isDone_iff_zero] at h ⊢
    simpa [heq] using h

theorem asleep_notMem_wake (workers : List Worker) : .asleep ∉ workers.map Worker.wake := by
  intro hmem
  obtain ⟨p, _, hp⟩ := List.mem_map.mp hmem
  cases p <;> cases hp

theorem watched_step (h : Watched s) (hstep : step turn s = some s') : Watched s' := by
  cases step_moves hstep with
  | submit id => exact h.pushed id
  | notify hn hw => exact h.woken hw (by omega)
  | notifyNobody hn hnobody => exact ⟨fun hmem => absurd hmem hnobody, h.joiners⟩
  | callJoin id =>
    refine ⟨h.workers, fun j hj hasleep hdone => ?_⟩
    rcases List.mem_append.mp hj with hj | hj
    · exact h.joiners j hj hasleep hdone
    · rw [List.mem_singleton.mp hj] at hasleep
      cases hasleep
  | returnJoin hj hawake hdone =>
    exact h.setJoiner (fun hasleep => nomatch hasleep) fun _ => isDone_of_erased hdone
  | sleepJoin hj hawake hdone => exact h.setJoiner (fun _ => hdone) fun _ => id
  | take hw htasks => exact h.taken hw htasks
  | sleep hw htasks hexit =>
    refine h.moved hw (by simp) fun _ => ?_
    rw [htasks]
    exact Nat.zero_le _
  | leave hw htasks hexit =>
    refine h.moved hw (by simp) fun _ => ?_
    rw [htasks]
    exact Nat.zero_le _
  | run hw => exact h.moved hw (by simp) (h.kept hw rfl (by simp))
  | count hw => exact h.counted hw
  | notifyJoiners hw => exact h.joinersWoken hw
  | wakeWorker hw => exact h.woken hw (Nat.le_succ _)
  | wakeJoiner hj hasleep => exact h.setJoiner (fun hasleep => nomatch hasleep) fun _ => id
  | exit hexit => exact ⟨h.workers, h.joiners⟩
  | notifyAll hexit hn =>
    refine ⟨fun hmem => absurd hmem (asleep_notMem_wake _), fun j hj hasleep hdone => ?_⟩
    exact List.mem_map.mpr ⟨_, h.joiners j hj hasleep hdone, rfl⟩

end Wakeups

/-! ## All runs -/

/-- What the pool promises. -/
structure Sound (s : System) : Prop where
  /-- A task runs once at most, and leaves the queue only to be run. -/
  runs_nodup : s.runs.Nodup
  runs_submitted : ∀ tt ∈ s.runs, tt ∈ s.submitted
  somewhere : ∀ tt ∈ s.submitted, tt ∈ s.tasks ∨ .running tt ∈ s.workers ∨ tt ∈ s.runs
  /-- A counter is the number of the tasks of its id that are not finished, and 0 when absent. -/
  counter : ∀ id, (s.waitgroups id).getD 0 =
    (s.submitted.filter fun tt => tt.id = id && tt ∉ s.finished).length
  finished_run : ∀ tt ∈ s.finished, tt ∈ s.runs
  /-- A `join` has returned after all tasks of its id that were there before. -/
  joined : ∀ j ∈ s.joiners, j.wait = .returned → ∀ tt ∈ j.before, tt ∈ s.finished
  /-- A `join` that looks returns when the tasks of its own id are finished, whatever the others
  do, and otherwise sleeps. -/
  released : ∀ k j, s.joiners[k]? = some j → j.wait = .awake → ∃ s' j',
    joinStep k s = some s' ∧ s'.joiners[k]? = some j' ∧ j'.wait ≠ .awake ∧
      (j'.wait = .returned ↔ ∀ tt ∈ s.submitted, tt.id = j.id → tt ∈ s.finished)
  /-- It does not sleep on when they are finished: a worker is about to notify it. -/
  woken : ∀ j ∈ s.joiners, j.wait = .asleep →
    (∀ tt ∈ s.submitted, tt.id = j.id → tt ∈ s.finished) → .counted ∈ s.workers

theorem mem_total_taken {tt : TaggedTask} {workers : List Worker} (h : tt ∈ total taken workers) :
    .running tt ∈ workers := by
  induction workers with
  | nil => exact absurd h (Multiset.notMem_zero tt)
  | cons p workers ih =>
    rw [total_cons, Multiset.mem_add] at h
    rcases h with h | h
    · cases p with
      | running tt' =>
        rw [Multiset.mem_singleton.mp h]
        exact List.mem_cons_self
      | _ => exact absurd h (Multiset.notMem_zero tt)
    · exact List.mem_cons_of_mem _ (ih h)

section Promises

variable {s : System}

/-- The tasks that are not finished, told by the history alone. -/
theorem Inv.unfinished_eq (inv : Inv s) :
    unfinished s = (s.submitted.filter (· ∉ s.finished) : List TaggedTask) := by
  have hnodup : (unfinished s + s.finished).Nodup := by
    rw [inv.unfinished_add]
    exact Multiset.coe_nodup.mpr inv.submitted_nodup
  have hdisjoint : ∀ tt ∈ unfinished s, tt ∉ s.finished := fun tt htt hfinished =>
    Multiset.disjoint_left.mp (Multiset.nodup_add.mp hnodup).2.2 htt (Multiset.mem_coe.mpr hfinished)
  have hkept : (unfinished s).filter (· ∉ s.finished) = unfinished s :=
    Multiset.filter_eq_self.mpr hdisjoint
  have hgone : (s.finished : Multiset TaggedTask).filter (· ∉ s.finished) = 0 :=
    Multiset.filter_eq_nil.mpr fun tt htt hnot => hnot (Multiset.mem_coe.mp htt)
  rw [← Multiset.filter_coe, ← inv.unfinished_add, Multiset.filter_add, hkept, hgone, add_zero]

theorem Inv.released (inv : Inv s) {k : Nat} {j : Joiner} (hj : s.joiners[k]? = some j)
    (hawake : j.wait = .awake) : ∃ s' j',
    joinStep k s = some s' ∧ s'.joiners[k]? = some j' ∧ j'.wait ≠ .awake ∧
      (j'.wait = .returned ↔ ∀ tt ∈ s.submitted, tt.id = j.id → tt ∈ s.finished) := by
  have hk : k < s.joiners.length := (List.getElem?_eq_some_iff.mp hj).1
  rw [← inv.isDone_iff j.id]
  unfold joinStep
  simp only [hj, hawake]
  cases hdone : isDone j.id s with
  | true => exact ⟨_, _, rfl, List.getElem?_set_self hk, by simp, by simp⟩
  | false => exact ⟨_, _, rfl, List.getElem?_set_self hk, by simp, by simp⟩

theorem Inv.sound (inv : Inv s) (hwatched : Watched s) : Sound s where
  runs_nodup := by
    have hnodup : (unrun s + s.runs).Nodup := by
      rw [inv.unrun_add]
      exact Multiset.coe_nodup.mpr inv.submitted_nodup
    exact Multiset.coe_nodup.mp (Multiset.nodup_add.mp hnodup).2.1
  runs_submitted tt htt := by
    rw [← Multiset.mem_coe, ← inv.unrun_add]
    exact Multiset.mem_add.mpr (.inr (Multiset.mem_coe.mpr htt))
  somewhere tt htt := by
    rw [← Multiset.mem_coe, ← inv.unrun_add, Multiset.mem_add] at htt
    rcases htt with htt | htt
    · rcases Multiset.mem_add.mp htt with hqueue | htaken
      · exact .inl (Multiset.mem_coe.mp hqueue)
      · exact .inr (.inl (mem_total_taken htaken))
    · exact .inr (.inr (Multiset.mem_coe.mp htt))
  counter id := by
    rw [inv.counter id, inv.unfinished_eq, Multiset.coe_countP, List.countP_eq_length_filter,
      List.filter_filter]
  finished_run tt htt := by
    rw [← Multiset.mem_coe, ← inv.uncounted_add]
    exact Multiset.mem_add.mpr (.inr (Multiset.mem_coe.mpr htt))
  joined := inv.joined
  released k j hj hawake := inv.released hj hawake
  woken j hj hasleep hall := hwatched.joiners j hj hasleep ((inv.isDone_iff j.id).mpr hall)

end Promises

/-- After every run of any threads on a pool of any size. -/
theorem pool_is_sound {n : Nat} {turns : List Turn} {s : System}
    (h : exec step turns (initial n) = some s) : Sound s :=
  (exec_preserves (fun _ _ _ inv hstep => inv_step inv hstep) (inv_initial n) h).sound
    (exec_preserves (fun _ _ _ hwatched hstep => watched_step hwatched hstep) (watched_initial n) h)

/-- Two ids on one worker: the first task throws, and its joiner sleeps, is woken and comes back
before the second task has run. -/
theorem joined_after_a_throw :
    let turns := [Turn.submit 1, .submit 2, .callJoin 1, .work 0 .returned, .join 0,
      .work 0 .thrown, .work 0 .returned, .work 0 .returned, .join 0, .submit 1]
    ∃ s, exec step turns (initial 1) = some s ∧ s.tasks = [⟨2, 1⟩, ⟨1, 2⟩] ∧
      s.joiners.map Joiner.wait = [.returned] ∧ Sound s := by
  intro turns
  have hrun : exec step turns (initial 1) = some _ := rfl
  exact ⟨_, hrun, rfl, rfl, pool_is_sound hrun⟩

/-! ## How a run ends -/

/-- A bound on the turns to come of a worker, and of the threads in `join` that it will wake, when
there are no more of these than `joins`. -/
def workerLeft (joins : Nat) : Worker → Nat
  | .running _ => joins + 4
  | .ran _ => joins + 3
  | .counted => joins + 2
  | .awake => 1
  | .asleep | .exited => 0

def joinerLeft (j : Joiner) : Nat :=
  match j.wait with
  | .awake => 1
  | .asleep | .returned => 0

/-- A bound on the turns to come, when nobody calls and nobody wakes up unasked. -/
def left (joins : Nat) (s : System) : Nat :=
  (joins + 4) * s.tasks.length + 2 * s.notifying + total (workerLeft joins) s.workers +
    total joinerLeft s.joiners + (bif s.exitFlag then 0 else 1) +
    bif s.notified then 0 else s.workers.length + 1

/-- What a turn adds to the turns to come. -/
def adds (joins : Nat) : Turn → Nat
  | .submit _ => joins + 7
  | .callJoin _ | .wakeWorker _ | .wakeJoiner _ => 2
  | _ => 0

/-- A pool that is not in its destructor. -/
structure Alive (n : Nat) (s : System) : Prop where
  exitFlag : s.exitFlag = false
  size : s.workers.length = n
  exited : .exited ∉ s.workers

section Endings

variable {n joins : Nat} {s s' : System} {turn : Turn}

theorem alive_initial (n : Nat) : Alive n (initial n) :=
  ⟨rfl, List.length_replicate, fun hmem => nomatch List.eq_of_mem_replicate hmem⟩

/-- A worker goes on, and stays. -/
theorem Alive.set (h : Alive n s) {w : Nat} {p : Worker} (hflag : s'.exitFlag = s.exitFlag)
    (hworkers : s'.workers = s.workers.set w p) (hp : p ≠ .exited) : Alive n s' := by
  refine ⟨hflag.trans h.exitFlag, ?_, fun hmem => ?_⟩
  · rw [hworkers]
    exact List.length_set.trans h.size
  · rw [hworkers] at hmem
    rcases List.mem_or_eq_of_mem_set hmem with hmem | heq
    · exact h.exited hmem
    · exact hp heq.symm

theorem alive_step (h : Alive n s) (hstep : step turn s = some s') (hexit : turn ≠ .exit) :
    Alive n s' := by
  cases step_moves hstep with
  | exit => exact absurd rfl hexit
  | notifyAll hflag hn =>
    rw [h.exitFlag] at hflag
    cases hflag
  | leave hw htasks hflag =>
    rw [h.exitFlag] at hflag
    cases hflag
  | notify | take | sleep | run | count | notifyJoiners | wakeWorker =>
    exact h.set rfl rfl (by simp)
  | _ => exact ⟨h.exitFlag, h.size, h.exited⟩

theorem joinerLeft_wake (j : Joiner) : joinerLeft j.wake ≤ joinerLeft j + 1 := by
  unfold joinerLeft Joiner.wake
  cases hwait : j.wait <;> simp [hwait]

theorem workerLeft_wake (joins : Nat) (p : Worker) :
    workerLeft joins p.wake ≤ workerLeft joins p + 1 := by
  cases p <;> simp [workerLeft, Worker.wake]

theorem left_step (hjoins : s.joiners.length ≤ joins) (h : step turn s = some s') :
    left joins s' < left joins s + adds joins turn := by
  have hworker (w : Nat) (p p' : Worker) (hw : s.workers[w]? = some p) :=
    total_set (workerLeft joins) p' hw
  have hjoiner (k : Nat) (j j' : Joiner) (hj : s.joiners[k]? = some j) :=
    total_set joinerLeft j' hj
  unfold left
  cases step_moves h with
  | submit id =>
    simp only [submit, adds, List.length_append, List.length_singleton, Nat.mul_add]
    omega
  | @notify w hn hw =>
    have hdo := hworker w _ .awake hw
    simp only [setWorker, List.length_set, adds, workerLeft] at hdo ⊢
    omega
  | notifyNobody hn hnobody =>
    simp only [adds]
    omega
  | callJoin id =>
    have hone : total joinerLeft [⟨id, s.submitted.filter (·.id = id), .awake⟩] = 1 := rfl
    simp only [callJoin, adds, total_append, hone]
    omega
  | @returnJoin k j hj hawake hdone =>
    have hdo := hjoiner k _ { j with wait := .returned } hj
    simp only [setJoiner, adds, joinerLeft, hawake] at hdo ⊢
    omega
  | @sleepJoin k j hj hawake hdone =>
    have hdo := hjoiner k _ { j with wait := .asleep } hj
    simp only [setJoiner, adds, joinerLeft, hawake] at hdo ⊢
    omega
  | @take w ending tt tasks hw htasks =>
    have hdo := hworker w _ (.running tt) hw
    simp only [setWorker, List.length_set, htasks, List.length_cons, Nat.mul_add, adds, workerLeft]
      at hdo ⊢
    omega
  | @sleep w ending hw htasks hexit =>
    have hdo := hworker w _ .asleep hw
    simp only [setWorker, List.length_set, adds, workerLeft] at hdo ⊢
    omega
  | @leave w ending hw htasks hexit =>
    have hdo := hworker w _ .exited hw
    simp only [setWorker, List.length_set, adds, workerLeft] at hdo ⊢
    omega
  | @run w ending tt hw =>
    have hdo := hworker w _ (.ran tt) hw
    simp only [setWorker, List.length_set, adds, workerLeft] at hdo ⊢
    omega
  | @count w ending tt hw =>
    have hdo := hworker w _ .counted hw
    simp only [setWorker, countDown, List.length_set, adds, workerLeft] at hdo ⊢
    omega
  | @notifyJoiners w ending hw =>
    have hdo := hworker w _ .awake hw
    have hwoken := total_map_le joinerLeft Joiner.wake joinerLeft_wake s.joiners
    simp only [setWorker, joinable_thread_pool.notifyJoiners, List.length_set, adds, workerLeft]
      at hdo ⊢
    omega
  | @wakeWorker w hw =>
    have hdo := hworker w _ .awake hw
    simp only [setWorker, List.length_set, adds, workerLeft] at hdo ⊢
    omega
  | @wakeJoiner k j hj hasleep =>
    have hdo := hjoiner k _ { j with wait := .awake } hj
    simp only [setJoiner, adds, joinerLeft, hasleep] at hdo ⊢
    omega
  | exit hexit => simp [hexit, adds]
  | notifyAll hexit hn =>
    have hwoken := total_map_le (workerLeft joins) Worker.wake (workerLeft_wake joins) s.workers
    simp only [List.length_map, hn, adds, cond_true, cond_false]
    omega

theorem left_initial (joins n : Nat) : left joins (initial n) = 2 * n + 2 := by
  have htotal : total (workerLeft joins) (List.replicate n Worker.awake) = n := by
    unfold total
    rw [List.map_replicate, List.sum_replicate]
    exact Nat.mul_one n
  have hnone : total joinerLeft ([] : List Joiner) = 0 := rfl
  simp only [left, initial, htotal, hnone, List.length_replicate, List.length_nil, cond_false]
  omega

theorem notifying_of_stuck (hnotify : ∀ w, notifyOne w s = none) : s.notifying = 0 := by
  by_contra hn
  unfold notifyOne at hnotify
  by_cases hsome : s.workers.any Worker.isAsleep = true
  · obtain ⟨w, hw⟩ := List.mem_iff_getElem?.mp (any_isAsleep.mp hsome)
    have hnone := hnotify w
    simp [hn, hsome, hw] at hnone
  · have hnone := hnotify 0
    simp [hn, hsome] at hnone

/-- Where no worker can go on and no notification is to come, all workers sleep. -/
theorem asleep_of_stuck (halive : Alive n s) (hwork : ∀ w, workerStep w .returned s = none) :
    ∀ p ∈ s.workers, p = .asleep := by
  intro p hp
  obtain ⟨w, hw⟩ := List.mem_iff_getElem?.mp hp
  have hnone := hwork w
  simp only [workerStep, hw] at hnone
  cases p with
  | asleep => rfl
  | exited => exact absurd hp halive.exited
  | awake => cases htasks : s.tasks <;> simp [htasks] at hnone
  | running tt => simp at hnone
  | ran tt => simp at hnone
  | counted => simp at hnone

/-- Then all tasks are finished, and no `join` sleeps. -/
theorem Inv.at_rest (inv : Inv s) (hwatched : Watched s) (halive : Alive n s) (hn : 0 < n)
    (hwork : ∀ w, workerStep w .returned s = none) (hnotify : ∀ w, notifyOne w s = none) :
    (∀ tt ∈ s.submitted, tt ∈ s.finished) ∧ ∀ j ∈ s.joiners, j.wait ≠ .asleep := by
  have hasleep := asleep_of_stuck halive hwork
  have hidle {M : Type} [AddCommMonoid M] (f : Worker → M) (hf : f .asleep = 0) :
      total f s.workers = 0 := total_eq_zero f fun p hp => by rw [hasleep p hp, hf]
  obtain ⟨p, hp⟩ := List.exists_mem_of_length_pos (halive.size ▸ hn)
  have hqueue := hwatched.workers (hasleep p hp ▸ hp)
  rw [notifying_of_stuck hnotify, hidle aboutToLook rfl] at hqueue
  have htasks : s.tasks = [] := List.eq_nil_of_length_eq_zero (Nat.le_zero.mp hqueue)
  have hnone : unfinished s = 0 := by
    unfold unfinished unrun
    rw [htasks, hidle taken rfl, hidle uncounted rfl]
    rfl
  have hall : ∀ tt ∈ s.submitted, tt ∈ s.finished := by
    have hadd := inv.unfinished_add
    rw [hnone, zero_add] at hadd
    intro tt htt
    rw [← Multiset.mem_coe, hadd]
    exact Multiset.mem_coe.mpr htt
  refine ⟨hall, fun j hj hsleeps => ?_⟩
  have hdone := (inv.isDone_iff j.id).mpr fun tt htt _ => hall tt htt
  cases hasleep _ (hwatched.joiners j hj hsleeps hdone)

end Endings

end seamus.joinable_thread_pool
