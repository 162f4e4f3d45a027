-- `ThreadPool`: a queue of tasks under a mutex, workers that sleep on a condition variable, and
-- the destructor that waits for them. A turn is one section of one thread under the mutex, one
-- call on the condition variable, or a task.
import Seamus.Library.Interleaving
import Mathlib.Algebra.Order.Group.Multiset

open interleaving

namespace seamus.thread_pool

/-! ## The source functions, cut where threads meet -/

inductive Worker (T : Type) where
  /-- About to look at the predicate of `cv.wait`, under the mutex. -/
  | awake
  /-- In `cv.wait`, until someone wakes it. -/
  | asleep
  /-- In `task()`. -/
  | running (task : T)
  | exited

/-- The pool, the threads, and what has happened so far. -/
structure System (T : Type) where
  tasks : List T
  exitFlag : Bool
  workers : List (Worker T)
  /-- The calls of `enqueue_task` that are about to notify. -/
  notifying : Nat
  /-- The destructor has notified all. -/
  notified : Bool
  /-- The threads that the destructor has joined. -/
  joined : Nat
  /-- A task has thrown, which nothing catches in `worker_loop`. -/
  terminated : Bool
  enqueued : List T
  started : List T
  finished : List T

variable {T : Type}

/-- `ThreadPool(n)`. -/
def initial (n : Nat) : System T :=
  ⟨[], false, List.replicate n .awake, 0, false, 0, false, [], [], []⟩

def Worker.isAsleep : Worker T → Bool
  | .asleep => true
  | _ => false

def Worker.hasExited : Worker T → Bool
  | .exited => true
  | _ => false

def Worker.wake : Worker T → Worker T
  | .asleep => .awake
  | p => p

def setWorker (w : Nat) (p : Worker T) (s : System T) : System T :=
  { s with workers := s.workers.set w p }

/-- `enqueue_task` up to its notification. -/
def pushTask (task : T) (s : System T) : System T :=
  { s with
    tasks := s.tasks ++ [task]
    notifying := s.notifying + 1
    enqueued := s.enqueued ++ [task] }

/-- A call of `enqueue_task`. Once the destructor has begun only a task of the pool may call it. -/
def enqueueTask (caller : Option Nat) (task : T) (s : System T) : Option (System T) :=
  match caller with
  | none => if s.exitFlag then none else some (pushTask task s)
  | some w =>
    match s.workers[w]? with
    | some (.running _) => some (pushTask task s)
    | _ => none

/-- `cv.notify_one`, which wakes some sleeper when there is one. -/
def notifyOne (w : Nat) (s : System T) : Option (System T) :=
  if s.notifying = 0 then none
  else if s.workers.any Worker.isAsleep then
    if s.workers[w]?.any Worker.isAsleep then
      some (setWorker w .awake { s with notifying := s.notifying - 1 })
    else none
  else some { s with notifying := s.notifying - 1 }

/-- A worker wakes up though nobody has notified it. -/
def wakeUp (w : Nat) (s : System T) : Option (System T) :=
  if s.workers[w]?.any Worker.isAsleep then some (setWorker w .awake s) else none

inductive Ending where
  | returned | thrown

/-- The next section of a worker. -/
def workerStep (w : Nat) (ending : Ending) (s : System T) : Option (System T) :=
  match s.workers[w]? with
  | none | some .exited | some .asleep => none
  | some .awake =>
    match s.tasks with
    | [] => some (setWorker w (if s.exitFlag then .exited else .asleep) s)
    | task :: tasks =>
      some (setWorker w (.running task) { s with tasks, started := s.started ++ [task] })
  | some (.running task) =>
    match ending with
    | .returned => some (setWorker w .awake { s with finished := s.finished ++ [task] })
    | .thrown => some { s with terminated := true }

/-- The first section of the destructor. -/
def setExit (s : System T) : Option (System T) :=
  if s.exitFlag then none else some { s with exitFlag := true }

/-- `cv.notify_all` in the destructor. -/
def notifyAll (s : System T) : Option (System T) :=
  if s.exitFlag ∧ s.notified = false then
    some { s with workers := s.workers.map Worker.wake, notified := true }
  else none

/-- The next `join` of the destructor. -/
def joinNext (s : System T) : Option (System T) :=
  if s.notified ∧ s.workers[s.joined]?.any Worker.hasExited then
    some { s with joined := s.joined + 1 }
  else none

inductive Turn (T : Type) where
  | enqueue (caller : Option Nat) (task : T)
  | notify (w : Nat)
  | wake (w : Nat)
  | work (w : Nat) (ending : Ending)
  | exit
  | notifyAll
  | join

def step (turn : Turn T) (s : System T) : Option (System T) :=
  if s.terminated then none
  else
    match turn with
    | .enqueue caller task => enqueueTask caller task s
    | .notify w => notifyOne w s
    | .wake w => wakeUp w s
    | .work w ending => workerStep w ending s
    | .exit => setExit s
    | .notifyAll => notifyAll s
    | .join => joinNext s

/-! ## What a turn can do -/

inductive Moves (s : System T) : Turn T → System T → Prop where
  | push {caller : Option Nat} {task : T}
      (h : s.exitFlag = false ∨ ∃ (w : Nat) (t : T), s.workers[w]? = some (.running t)) :
      Moves s (.enqueue caller task) (pushTask task s)
  | notify {w : Nat} (hn : 0 < s.notifying) (hw : s.workers[w]? = some .asleep) :
      Moves s (.notify w) (setWorker w .awake { s with notifying := s.notifying - 1 })
  | notifyNobody {w : Nat} (hn : 0 < s.notifying)
      (hnobody : ∀ p ∈ s.workers, p.isAsleep = false) :
      Moves s (.notify w) { s with notifying := s.notifying - 1 }
  | wake {w : Nat} (hw : s.workers[w]? = some .asleep) :
      Moves s (.wake w) (setWorker w .awake s)
  | take {w : Nat} {ending : Ending} {task : T} {tasks : List T}
      (hw : s.workers[w]? = some .awake) (htasks : s.tasks = task :: tasks) :
      Moves s (.work w ending)
        (setWorker w (.running task) { s with tasks, started := s.started ++ [task] })
  | sleep {w : Nat} {ending : Ending} (hw : s.workers[w]? = some .awake) (htasks : s.tasks = [])
      (hexit : s.exitFlag = false) : Moves s (.work w ending) (setWorker w .asleep s)
  | leave {w : Nat} {ending : Ending} (hw : s.workers[w]? = some .awake) (htasks : s.tasks = [])
      (hexit : s.exitFlag = true) : Moves s (.work w ending) (setWorker w .exited s)
  | finish {w : Nat} {task : T} (hw : s.workers[w]? = some (.running task)) :
      Moves s (.work w .returned)
        (setWorker w .awake { s with finished := s.finished ++ [task] })
  | throw {w : Nat} {task : T} (hw : s.workers[w]? = some (.running task)) :
      Moves s (.work w .thrown) { s with terminated := true }
  | exit (hexit : s.exitFlag = false) : Moves s .exit { s with exitFlag := true }
  | notifyAll (hexit : s.exitFlag = true) (hn : s.notified = false) :
      Moves s .notifyAll { s with workers := s.workers.map Worker.wake, notified := true }
  | join (hn : s.notified = true) (hw : s.workers[s.joined]? = some .exited) :
      Moves s .join { s with joined := s.joined + 1 }

theorem any_isAsleep {p : Option (Worker T)} : p.any Worker.isAsleep = true ↔ p = some .asleep := by
  cases p with
  | none => simp
  | some p => cases p <;> simp [Worker.isAsleep]

theorem any_hasExited {p : Option (Worker T)} :
    p.any Worker.hasExited = true ↔ p = some .exited := by
  cases p with
  | none => simp
  | some p => cases p <;> simp [Worker.hasExited]

section Turns

variable {s s' : System T} {turn : Turn T}

theorem workerStep_moves {w : Nat} {ending : Ending} (h : workerStep w ending s = some s') :
    Moves s (.work w ending) s' := by
  unfold workerStep at h
  cases hw : s.workers[w]? with
  | none =>
    rw [hw] at h
    cases h
  | some p =>
    rw [hw] at h
    cases p with
    | asleep => cases h
    | exited => cases h
    | awake =>
      cases htasks : s.tasks with
      | nil =>
        simp only [htasks] at h
        cases hexit : s.exitFlag <;> rw [hexit] at h <;> cases h
        · exact .sleep hw htasks hexit
        · exact .leave hw htasks hexit
      | cons task tasks =>
        simp only [htasks] at h
        cases h
        exact .take hw htasks
    | running task =>
      cases ending <;> cases h
      · exact .finish hw
      · exact .throw hw

theorem notifyOne_moves {w : Nat} (h : notifyOne w s = some s') : Moves s (.notify w) s' := by
  unfold notifyOne at h
  split_ifs at h with hnone hsome hw
  · cases h
    exact .notify (Nat.pos_of_ne_zero hnone) (any_isAsleep.mp hw)
  · cases h
    refine .notifyNobody (Nat.pos_of_ne_zero hnone) fun p hp => ?_
    exact Bool.eq_false_iff.mpr fun hasleep => hsome (List.any_eq_true.mpr ⟨p, hp, hasleep⟩)

theorem enqueueTask_moves {caller : Option Nat} {task : T}
    (h : enqueueTask caller task s = some s') : Moves s (.enqueue caller task) s' := by
  unfold enqueueTask at h
  cases caller with
  | none =>
    simp only at h
    split_ifs at h with hexit
    cases h
    exact .push (.inl (Bool.eq_false_iff.mpr hexit))
  | some w =>
    simp only at h
    split at h
    · rename_i t hw
      cases h
      exact .push (.inr ⟨w, t, hw⟩)
    · cases h

theorem step_moves (h : step turn s = some s') : s.terminated = false ∧ Moves s turn s' := by
  unfold step at h
  split_ifs at h with hterminated
  refine ⟨Bool.eq_false_iff.mpr hterminated, ?_⟩
  cases turn with
  | enqueue caller task => exact enqueueTask_moves h
  | notify w => exact notifyOne_moves h
  | wake w =>
    simp only [wakeUp] at h
    split_ifs at h with hw
    cases h
    exact .wake (any_isAsleep.mp hw)
  | work w ending => exact workerStep_moves h
  | exit =>
    simp only [setExit] at h
    split_ifs at h with hexit
    cases h
    exact .exit (Bool.eq_false_iff.mpr hexit)
  | notifyAll =>
    simp only [notifyAll] at h
    split_ifs at h with hall
    cases h
    exact .notifyAll hall.1 hall.2
  | join =>
    simp only [joinNext] at h
    split_ifs at h with hjoin
    cases h
    exact .join hjoin.1 (any_hasExited.mp hjoin.2)

end Turns

/-! ## Where a task is, and who looks after the queue -/

/-- The task that a worker runs. -/
def inHand : Worker T → Multiset T
  | .running task => {task}
  | _ => 0

/-- A worker that is about to look at the queue. -/
def aboutToLook : Worker T → Nat
  | .awake => 1
  | _ => 0

structure Inv (n : Nat) (s : System T) : Prop where
  size : s.workers.length = n
  /-- Tasks start in the order of their calls, each once. -/
  order : s.started ++ s.tasks = s.enqueued
  ran : total inHand s.workers + s.finished = s.started
  /-- No wakeup is lost: a worker sleeps only while each queued task has a notification to come or
  a worker that will look. -/
  watched : .asleep ∈ s.workers →
    s.tasks.length ≤ s.notifying + total aboutToLook s.workers
  exited : .exited ∈ s.workers → s.exitFlag = true
  /-- The last worker does not leave a task behind. -/
  manned : s.tasks ≠ [] → 0 < n → ∃ p ∈ s.workers, p.hasExited = false
  exit_of_notified : s.notified = true → s.exitFlag = true
  notified : s.notified = true → .asleep ∉ s.workers
  joined : ∀ w < s.joined, s.workers[w]? = some .exited

theorem inv_initial (n : Nat) : Inv n (initial n : System T) := by
  have hawake : ∀ p ∈ List.replicate n (Worker.awake : Worker T), p = .awake :=
    fun p hp => List.eq_of_mem_replicate hp
  constructor
  · exact List.length_replicate
  · rfl
  · have hzero : total inHand (List.replicate n (Worker.awake : Worker T)) = 0 :=
      total_eq_zero inHand fun p hp => by rw [hawake p hp]; rfl
    unfold initial
    simp only [hzero]
    rfl
  · exact fun h => nomatch hawake _ h
  · exact fun h => nomatch hawake _ h
  · exact fun h => absurd rfl h
  · exact fun h => nomatch h
  · exact fun h => nomatch h
  · exact fun w hw => absurd hw (Nat.not_lt_zero w)

section Invariant

variable {n : Nat} {s s' : System T} {turn : Turn T}

/-- One worker goes on. -/
theorem Inv.moved (inv : Inv n s) {w : Nat} {p p' : Worker T} (hw : s.workers[w]? = some p)
    (hp : p.hasExited = false) {tasks started finished : List T} {notifying : Nat}
    (horder : started ++ tasks = s.enqueued)
    (hran : total inHand (s.workers.set w p') + finished = started)
    (hwatched : .asleep ∈ s.workers.set w p' →
      tasks.length ≤ notifying + total aboutToLook (s.workers.set w p'))
    (hexited : p' = .exited → s.exitFlag = true ∧ tasks = [])
    (hasleep : p' = .asleep → s.exitFlag = false) :
    Inv n (setWorker w p' { s with tasks, notifying, started, finished }) := by
  have hlt : w < s.workers.length := (List.getElem?_eq_some_iff.mp hw).1
  refine ⟨?_, horder, hran, hwatched, ?_, ?_, inv.exit_of_notified, ?_, ?_⟩
  · exact List.length_set.trans inv.size
  · intro hmem
    rcases List.mem_or_eq_of_mem_set hmem with hmem | heq
    · exact inv.exited hmem
    · exact (hexited heq.symm).1
  · intro htasks _
    refine ⟨p', List.mem_set hlt p', ?_⟩
    cases p' with
    | exited => exact absurd (hexited rfl).2 htasks
    | awake => rfl
    | asleep => rfl
    | running task => rfl
  · intro hnotified hmem
    rcases List.mem_or_eq_of_mem_set hmem with hmem | heq
    · exact inv.notified hnotified hmem
    · have hexit := inv.exit_of_notified hnotified
      rw [hasleep heq.symm] at hexit
      cases hexit
  · intro v hv
    have hold := inv.joined v hv
    have hne : w ≠ v := by
      rintro rfl
      rw [hold] at hw
      cases hw
      cases hp
    exact (List.getElem?_set_ne hne).trans hold

/-- A sleeper wakes up, by a notification or without one. -/
theorem Inv.woken (inv : Inv n s) {w notifying : Nat} (hw : s.workers[w]? = some .asleep)
    (hn : s.notifying ≤ notifying + 1) :
    Inv n (setWorker w .awake { s with notifying }) := by
  have hlook : total aboutToLook (s.workers.set w .awake) = 1 + total aboutToLook s.workers :=
    total_gain aboutToLook hw rfl
  refine inv.moved hw rfl inv.order ?_ ?_ (fun h => nomatch h) (fun h => nomatch h)
  · have hhand : total inHand (s.workers.set w .awake) = total inHand s.workers :=
      total_keep inHand hw rfl
    rw [hhand]
    exact inv.ran
  · intro _
    have hwatched := inv.watched (List.mem_of_getElem? hw)
    rw [hlook]
    omega

theorem Inv.pushed (inv : Inv n s) {task : T}
    (h : s.exitFlag = false ∨ ∃ (w : Nat) (t : T), s.workers[w]? = some (.running t)) :
    Inv n (pushTask task s) := by
  refine ⟨inv.size, ?_, inv.ran, ?_, inv.exited, ?_, inv.exit_of_notified, inv.notified, inv.joined⟩
  · unfold pushTask
    simp only [← List.append_assoc, inv.order]
  · intro hmem
    have hwatched := inv.watched hmem
    unfold pushTask
    simp only [List.length_append, List.length_singleton]
    omega
  · intro _ hn
    rcases h with hexit | ⟨w, t, hw⟩
    · obtain ⟨p, hp⟩ := List.exists_mem_of_length_pos (inv.size ▸ hn)
      refine ⟨p, hp, ?_⟩
      cases p with
      | exited =>
        rw [inv.exited hp] at hexit
        cases hexit
      | awake => rfl
      | asleep => rfl
      | running task => rfl
    · exact ⟨_, List.mem_of_getElem? hw, rfl⟩

theorem Inv.taken (inv : Inv n s) {w : Nat} {task : T} {tasks : List T}
    (hw : s.workers[w]? = some .awake) (htasks : s.tasks = task :: tasks) :
    Inv n (setWorker w (.running task) { s with tasks, started := s.started ++ [task] }) := by
  have hhand : total inHand (s.workers.set w (.running task)) = {task} + total inHand s.workers :=
    total_gain inHand hw (add_zero _).symm
  have hlook : 1 + total aboutToLook (s.workers.set w (.running task)) =
      total aboutToLook s.workers := total_lose aboutToLook hw rfl
  have horder := inv.order
  rw [htasks] at horder
  refine inv.moved hw rfl ?_ ?_ ?_ (fun h => nomatch h) (fun h => nomatch h)
  · rw [List.append_assoc]
    exact horder
  · rw [hhand, ← Multiset.coe_add, Multiset.coe_singleton, ← inv.ran]
    abel
  · intro hmem
    rcases List.mem_or_eq_of_mem_set hmem with hmem | heq
    · have hwatched := inv.watched hmem
      rw [htasks, List.length_cons] at hwatched
      omega
    · cases heq

theorem Inv.fellAsleep (inv : Inv n s) {w : Nat} (hw : s.workers[w]? = some .awake)
    (htasks : s.tasks = []) (hexit : s.exitFlag = false) : Inv n (setWorker w .asleep s) := by
  refine inv.moved hw rfl inv.order ?_ ?_ (fun h => nomatch h) (fun _ => hexit)
  · have hhand : total inHand (s.workers.set w .asleep) = total inHand s.workers :=
      total_keep inHand hw rfl
    rw [hhand]
    exact inv.ran
  · intro _
    rw [htasks]
    exact Nat.zero_le _

theorem Inv.gone (inv : Inv n s) {w : Nat} (hw : s.workers[w]? = some .awake)
    (htasks : s.tasks = []) (hexit : s.exitFlag = true) : Inv n (setWorker w .exited s) := by
  refine inv.moved hw rfl inv.order ?_ ?_ (fun _ => ⟨hexit, htasks⟩) (fun h => nomatch h)
  · have hhand : total inHand (s.workers.set w .exited) = total inHand s.workers :=
      total_keep inHand hw rfl
    rw [hhand]
    exact inv.ran
  · intro _
    rw [htasks]
    exact Nat.zero_le _

theorem Inv.ranOne (inv : Inv n s) {w : Nat} {task : T} (hw : s.workers[w]? = some (.running task)) :
    Inv n (setWorker w .awake { s with finished := s.finished ++ [task] }) := by
  have hhand : {task} + total inHand (s.workers.set w .awake) = total inHand s.workers :=
    total_lose inHand hw (add_zero _).symm
  have hlook : total aboutToLook (s.workers.set w .awake) = 1 + total aboutToLook s.workers :=
    total_gain aboutToLook hw rfl
  refine inv.moved hw rfl inv.order ?_ ?_ (fun h => nomatch h) (fun h => nomatch h)
  · rw [← inv.ran, ← hhand, ← Multiset.coe_add, Multiset.coe_singleton]
    abel
  · intro hmem
    rcases List.mem_or_eq_of_mem_set hmem with hmem | heq
    · have hwatched := inv.watched hmem
      omega
    · cases heq

theorem inHand_wake (p : Worker T) : inHand p.wake = inHand p := by
  cases p <;> rfl

theorem asleep_notMem_wake (workers : List (Worker T)) : .asleep ∉ workers.map Worker.wake := by
  intro hmem
  obtain ⟨p, _, hp⟩ := List.mem_map.mp hmem
  cases p <;> cases hp

theorem hasExited_wake (p : Worker T) : p.wake.hasExited = p.hasExited := by
  cases p <;> rfl

theorem Inv.allWoken (inv : Inv n s) (hexit : s.exitFlag = true) :
    Inv n { s with workers := s.workers.map Worker.wake, notified := true } := by
  refine ⟨?_, inv.order, ?_, ?_, fun _ => hexit, ?_, fun _ => hexit, ?_, ?_⟩
  · exact (List.length_map _).trans inv.size
  · rw [total_map inHand Worker.wake inHand_wake]
    exact inv.ran
  · exact fun hmem => absurd hmem (asleep_notMem_wake _)
  · intro htasks hn
    obtain ⟨p, hp, hstays⟩ := inv.manned htasks hn
    exact ⟨p.wake, List.mem_map_of_mem hp, (hasExited_wake p).trans hstays⟩
  · exact fun _ => asleep_notMem_wake _
  · intro w hw
    have hexited := inv.joined w hw
    simp only [List.getElem?_map, hexited, Option.map_some, Worker.wake]

theorem inv_step (inv : Inv n s) (h : step turn s = some s') : Inv n s' := by
  cases (step_moves h).2 with
  | push hcaller => exact inv.pushed hcaller
  | notify hn hw => exact inv.woken hw (by omega)
  | notifyNobody hn hnobody =>
    refine ⟨inv.size, inv.order, inv.ran, fun hmem => ?_, inv.exited, inv.manned,
      inv.exit_of_notified, inv.notified, inv.joined⟩
    cases hnobody _ hmem
  | wake hw => exact inv.woken hw (Nat.le_succ _)
  | take hw htasks => exact inv.taken hw htasks
  | sleep hw htasks hexit => exact inv.fellAsleep hw htasks hexit
  | leave hw htasks hexit => exact inv.gone hw htasks hexit
  | finish hw => exact inv.ranOne hw
  | throw hw =>
    exact ⟨inv.size, inv.order, inv.ran, inv.watched, inv.exited, inv.manned,
      inv.exit_of_notified, inv.notified, inv.joined⟩
  | exit hexit =>
    exact ⟨inv.size, inv.order, inv.ran, inv.watched, fun _ => rfl, inv.manned, fun _ => rfl,
      inv.notified, inv.joined⟩
  | notifyAll hexit hn => exact inv.allWoken hexit
  | join hn hw =>
    refine ⟨inv.size, inv.order, inv.ran, inv.watched, inv.exited, inv.manned,
      inv.exit_of_notified, inv.notified, fun w hlt => ?_⟩
    rcases Nat.lt_succ_iff_lt_or_eq.mp hlt with hlt | rfl
    · exact inv.joined w hlt
    · exact hw

theorem inv_run {turns : List (Turn T)} (h : exec step turns (initial n) = some s) : Inv n s :=
  exec_preserves (fun _ _ _ inv hstep => inv_step inv hstep) (inv_initial n) h

/-- With an empty queue and no task in hand all have finished. -/
theorem Inv.finished_perm (inv : Inv n s) (htasks : s.tasks = [])
    (hidle : ∀ p ∈ s.workers, inHand p = 0) : s.finished.Perm s.enqueued := by
  have hran := inv.ran
  have horder := inv.order
  rw [total_eq_zero inHand hidle, zero_add] at hran
  rw [htasks, List.append_nil] at horder
  rw [← horder]
  exact Multiset.coe_eq_coe.mp hran

/-- The destructor comes back after all tasks, also those that tasks have called for meanwhile. -/
theorem Inv.all_finished (inv : Inv n s) (hn : 0 < n) (hjoined : s.joined = n) :
    s.tasks = [] ∧ s.finished.Perm s.enqueued := by
  have hexited : ∀ p ∈ s.workers, p = .exited := by
    intro p hp
    obtain ⟨w, hw, heq⟩ := List.getElem_of_mem hp
    have hlast := inv.joined w (by rw [hjoined, ← inv.size]; exact hw)
    rw [List.getElem?_eq_getElem hw, heq] at hlast
    exact Option.some.inj hlast
  have htasks : s.tasks = [] := by
    by_contra hsome
    obtain ⟨p, hp, hstays⟩ := inv.manned hsome hn
    rw [hexited p hp] at hstays
    cases hstays
  exact ⟨htasks, inv.finished_perm htasks fun p hp => by rw [hexited p hp]; rfl⟩

end Invariant

/-- Whatever the threads do, on a pool of any size. -/
theorem tasks_run_in_order {n : Nat} {turns : List (Turn T)} {s : System T}
    (h : exec step turns (initial n) = some s) :
    Inv n s ∧ (0 < n → s.joined = n → s.tasks = [] ∧ s.finished.Perm s.enqueued) :=
  ⟨inv_run h, fun hn hjoined => (inv_run h).all_finished hn hjoined⟩

/-- A task that calls for another one while the destructor waits. Both have run when it is back. -/
theorem late_task_is_finished :
    let turns := [Turn.enqueue none 7, .work 0 .returned, .work 1 .returned, .exit, .notify 1,
      .enqueue (some 0) 8, .work 1 .returned, .notifyAll, .work 0 .returned, .notify 0,
      .work 0 .returned, .join, .work 1 .returned, .work 1 .returned, .join]
    ∃ s : System Nat, exec step turns (initial 2) = some s ∧ Inv 2 s ∧ s.tasks = [] ∧
      s.finished.Perm s.enqueued ∧ s.enqueued = [7, 8] := by
  intro turns
  have hrun : exec step turns (initial 2) = some _ := rfl
  have hsound := tasks_run_in_order hrun
  exact ⟨_, hrun, hsound.1, (hsound.2 (by decide) rfl).1, (hsound.2 (by decide) rfl).2, rfl⟩

/-! ## How a run ends -/

/-- The turns that a thread of the pool takes by itself, when no task throws. -/
def Turn.isOwn : Turn T → Bool
  | .notify _ | .work _ .returned | .notifyAll | .join => true
  | _ => false

/-- The turns that are still to come of a worker. -/
def toDo : Worker T → Nat
  | .running _ => 2
  | .awake => 1
  | _ => 0

/-- A bound on the turns to come, when nobody calls for a task and no worker wakes up unasked. -/
def left (s : System T) : Nat :=
  2 * s.tasks.length + 2 * s.notifying + total toDo s.workers + (s.workers.length - s.joined) +
    (bif s.exitFlag then 0 else 1) + (bif s.notified then 0 else s.workers.length + 1) +
    bif s.terminated then 0 else 1

/-- What a turn adds to the turns to come. -/
def adds : Turn T → Nat
  | .enqueue _ _ => 5
  | .wake _ => 2
  | _ => 0

section Endings

variable {n : Nat} {s s' : System T} {turn : Turn T}

theorem toDo_wake (p : Worker T) : toDo p.wake ≤ toDo p + 1 := by
  cases p <;> simp [toDo, Worker.wake]

theorem left_step (h : step turn s = some s') : left s' < left s + adds turn := by
  obtain ⟨hrunning, hmoves⟩ := step_moves h
  have hset : ∀ (w : Nat) (p p' : Worker T), s.workers[w]? = some p →
      total toDo (s.workers.set w p') + toDo p = total toDo s.workers + toDo p' :=
    fun w p p' hw => total_set toDo p' hw
  unfold left
  cases hmoves with
  | push hcaller => simp [pushTask, adds]; omega
  | @notify w hn hw =>
    have hdo := hset w _ .awake hw
    simp only [setWorker, List.length_set, adds, toDo] at hdo ⊢
    omega
  | notifyNobody hn hnobody => simp only [adds]; omega
  | @wake w hw =>
    have hdo := hset w _ .awake hw
    simp only [setWorker, List.length_set, adds, toDo] at hdo ⊢
    omega
  | @take w ending task tasks hw htasks =>
    have hdo := hset w _ (.running task) hw
    simp only [setWorker, List.length_set, htasks, List.length_cons, adds, toDo] at hdo ⊢
    omega
  | @sleep w ending hw htasks hexit =>
    have hdo := hset w _ .asleep hw
    simp only [setWorker, List.length_set, adds, toDo] at hdo ⊢
    omega
  | @leave w ending hw htasks hexit =>
    have hdo := hset w _ .exited hw
    simp only [setWorker, List.length_set, adds, toDo] at hdo ⊢
    omega
  | @finish w task hw =>
    have hdo := hset w _ .awake hw
    simp only [setWorker, List.length_set, adds, toDo] at hdo ⊢
    omega
  | throw hw => simp [hrunning, adds]
  | exit hexit => simp [hexit, adds]
  | notifyAll hexit hn =>
    have hdo := total_map_le toDo Worker.wake toDo_wake s.workers
    simp only [List.length_map, hn, adds, cond_true, cond_false]
    omega
  | join hn hw =>
    have hlt : s.joined < s.workers.length := (List.getElem?_eq_some_iff.mp hw).1
    simp only [adds]
    omega

/-- A worker that sleeps or has left is all that stands still. -/
theorem stopped_of_stuck (hrunning : s.terminated = false) {w : Nat} {p : Worker T}
    (hstuck : step (.work w .returned) s = none) (hw : s.workers[w]? = some p) :
    p = .asleep ∨ p = .exited := by
  simp only [step, hrunning, Bool.false_eq_true, if_false, workerStep, hw] at hstuck
  cases p with
  | awake => cases htasks : s.tasks <;> rw [htasks] at hstuck <;> cases hstuck
  | asleep => exact .inl rfl
  | running task => cases hstuck
  | exited => exact .inr rfl

theorem notifying_of_stuck (hrunning : s.terminated = false)
    (hstuck : ∀ w, step (.notify w) s = none) : s.notifying = 0 := by
  by_contra hn
  have hnotify : ∀ w, notifyOne w s = none := by
    intro w
    have hnone := hstuck w
    simp only [step, hrunning, Bool.false_eq_true, if_false] at hnone
    exact hnone
  unfold notifyOne at hnotify
  by_cases hsome : s.workers.any Worker.isAsleep = true
  · obtain ⟨p, hp, hasleep⟩ := List.any_eq_true.mp hsome
    obtain ⟨w, hw, heq⟩ := List.getElem_of_mem hp
    have hnone := hnotify w
    simp [hn, hsome, List.getElem?_eq_getElem hw, heq, hasleep] at hnone
  · have hnone := hnotify 0
    simp [hn, hsome] at hnone

theorem notified_of_stuck (hrunning : s.terminated = false) (hexit : s.exitFlag = true)
    (hstuck : step .notifyAll s = none) : s.notified = true := by
  by_contra hnot
  simp [step, hrunning, notifyAll, hexit, hnot] at hstuck

theorem Inv.joined_of_stuck (inv : Inv n s) (hrunning : s.terminated = false)
    (hnotified : s.notified = true) (hexited : ∀ p ∈ s.workers, p = .exited)
    (hstuck : step .join s = none) : s.joined = n := by
  have hle : s.joined ≤ n := by
    by_contra hgt
    have hpast := inv.joined n (by omega)
    rw [List.getElem?_eq_none (Nat.le_of_eq inv.size)] at hpast
    cases hpast
  by_contra hne
  have hlt : s.joined < s.workers.length := by
    rw [inv.size]
    omega
  have hnext := hexited _ (List.getElem_mem hlt)
  simp [step, hrunning, joinNext, hnotified, List.getElem?_eq_getElem hlt, hnext,
    Worker.hasExited] at hstuck

/-- Where no thread can go on by itself, nothing is left to do: all workers sleep, or the
destructor is back. -/
theorem Inv.at_rest (inv : Inv n s) (hn : 0 < n) (hrunning : s.terminated = false)
    (hstuck : ∀ turn : Turn T, turn.isOwn = true → step turn s = none) :
    s.tasks = [] ∧ s.finished.Perm s.enqueued ∧
      if s.exitFlag then s.joined = n else ∀ p ∈ s.workers, p = .asleep := by
  have hstopped : ∀ p ∈ s.workers, p = .asleep ∨ p = .exited := by
    intro p hp
    obtain ⟨w, hw, heq⟩ := List.getElem_of_mem hp
    exact stopped_of_stuck hrunning (hstuck (.work w .returned) rfl)
      ((List.getElem?_eq_getElem hw).trans (congrArg some heq))
  cases hexit : s.exitFlag with
  | true =>
    have hnotified := notified_of_stuck hrunning hexit (hstuck .notifyAll rfl)
    have hexited : ∀ p ∈ s.workers, p = .exited := fun p hp =>
      (hstopped p hp).resolve_left fun heq => inv.notified hnotified (heq ▸ hp)
    have hjoined := inv.joined_of_stuck hrunning hnotified hexited (hstuck .join rfl)
    exact ⟨(inv.all_finished hn hjoined).1, (inv.all_finished hn hjoined).2, hjoined⟩
  | false =>
    have hasleep : ∀ p ∈ s.workers, p = .asleep := by
      intro p hp
      refine (hstopped p hp).resolve_right fun heq => ?_
      rw [inv.exited (heq ▸ hp)] at hexit
      cases hexit
    have hnotifying := notifying_of_stuck hrunning fun w => hstuck (.notify w) rfl
    obtain ⟨p, hp⟩ := List.exists_mem_of_length_pos (inv.size ▸ hn)
    have hwatched := inv.watched (hasleep p hp ▸ hp)
    have hlook : total aboutToLook s.workers = 0 :=
      total_eq_zero aboutToLook fun q hq => by rw [hasleep q hq]; rfl
    have htasks : s.tasks = [] := by
      apply List.eq_nil_of_length_eq_zero
      omega
    have hidle : ∀ q ∈ s.workers, inHand q = 0 := fun q hq => by rw [hasleep q hq]; rfl
    exact ⟨htasks, inv.finished_perm htasks hidle, hasleep⟩

theorem left_initial (n : Nat) : left (initial n : System T) = 3 * n + 3 := by
  have htotal : total toDo (List.replicate n (Worker.awake : Worker T)) = n := by
    unfold total
    rw [List.map_replicate, List.sum_replicate]
    exact Nat.mul_one n
  simp only [left, initial, htotal, List.length_replicate, List.length_nil, cond_false]
  omega

end Endings

/-- Every run comes to an end when the calls and the unasked wakeups do. Where it ends without a
throw all tasks have run, and the workers sleep or the destructor is back. -/
theorem pool_runs_out {n : Nat} (hn : 0 < n) {turns : List (Turn T)} {s : System T}
    (h : exec step turns (initial n) = some s) :
    turns.length ≤ 3 * n + 3 + total adds turns ∧
      (s.terminated = false → (∀ turn : Turn T, turn.isOwn = true → step turn s = none) →
        s.tasks = [] ∧ s.finished.Perm s.enqueued ∧
          if s.exitFlag then s.joined = n else ∀ p ∈ s.workers, p = .asleep) := by
  have hlength := exec_length_le left adds (fun _ _ _ inv hstep => inv_step inv hstep)
    (fun _ _ _ _ hstep => left_step hstep) (inv_initial n) h
  rw [left_initial] at hlength
  exact ⟨by omega, fun hrunning hstuck => (inv_run h).at_rest hn hrunning hstuck⟩

theorem one_task_runs_out :
    let turns := [Turn.work 0 .returned, .enqueue none 7, .notify 0, .work 0 .returned,
      .work 0 .returned, .work 0 .returned]
    ∃ s : System Nat, exec step turns (initial 1) = some s ∧ s.finished.Perm s.enqueued := by
  intro turns
  have hrun : exec step turns (initial 1) = some _ := rfl
  have hstuck : ∀ turn : Turn Nat, turn.isOwn = true →
      step turn ⟨[], false, [.asleep], 0, false, 0, false, [7], [7], [7]⟩ = none := by
    intro turn hown
    cases turn with
    | notify w => rfl
    | work w ending => cases w <;> cases ending <;> rfl
    | notifyAll => rfl
    | join => rfl
    | enqueue caller task => cases hown
    | wake w => cases hown
    | exit => cases hown
  exact ⟨_, hrun, ((pool_runs_out (by decide) hrun).2 rfl hstuck).2.1⟩

/-! ## The history, for the users of a pool -/

section History

variable {n : Nat} {s s' : System T} {turn : Turn T}

/-- The task of a call. -/
def Turn.called : Turn T → List T
  | .enqueue _ task => [task]
  | _ => []

/-- The task that a turn brings to its end. -/
def Turn.ended (s : System T) : Turn T → List T
  | .work w .returned =>
    match s.workers[w]? with
    | some (.running task) => [task]
    | _ => []
  | _ => []

theorem ended_of_running {w : Nat} {task : T} (hw : s.workers[w]? = some (.running task)) :
    (Turn.work w .returned).ended s = [task] := by
  simp only [Turn.ended, hw]

theorem ended_of_not_running {w : Nat} (hw : ∀ task, s.workers[w]? ≠ some (.running task)) :
    (Turn.work w .returned).ended s = [] := by
  cases hp : s.workers[w]? with
  | none => simp only [Turn.ended, hp]
  | some p =>
    cases p with
    | running task => exact absurd hp (hw task)
    | _ => simp only [Turn.ended, hp]

theorem step_history (h : step turn s = some s') :
    s'.enqueued = s.enqueued ++ turn.called ∧ s'.finished = s.finished ++ turn.ended s := by
  cases (step_moves h).2 with
  | @take w ending task tasks hw htasks =>
    cases ending <;> simp [Turn.called, Turn.ended, setWorker, hw]
  | @sleep w ending hw htasks hexit =>
    cases ending <;> simp [Turn.called, Turn.ended, setWorker, hw]
  | @leave w ending hw htasks hexit =>
    cases ending <;> simp [Turn.called, Turn.ended, setWorker, hw]
  | finish hw => simp [Turn.called, ended_of_running hw, setWorker]
  | _ => simp [Turn.called, Turn.ended, setWorker, pushTask]

/-- Only a throw ends the process, and only the destructor the pool. -/
theorem step_alive (h : step turn s = some s') (hthrow : ∀ w, turn ≠ .work w .thrown)
    (hexit : turn ≠ .exit) : s'.terminated = false ∧ s'.exitFlag = s.exitFlag := by
  obtain ⟨hrunning, hmoves⟩ := step_moves h
  cases hmoves with
  | throw hw => exact absurd rfl (hthrow _)
  | exit => exact absurd rfl hexit
  | _ => exact ⟨hrunning, rfl⟩

theorem Inv.started_nodup (inv : Inv n s) (hnodup : s.enqueued.Nodup) : s.started.Nodup := by
  rw [← inv.order] at hnodup
  exact (List.nodup_append.mp hnodup).1

theorem Inv.finished_nodup (inv : Inv n s) (hnodup : s.enqueued.Nodup) : s.finished.Nodup := by
  have hall : (total inHand s.workers + s.finished).Nodup := by
    rw [inv.ran]
    exact Multiset.coe_nodup.mpr (inv.started_nodup hnodup)
  exact Multiset.coe_nodup.mp (Multiset.nodup_add.mp hall).2.1

/-- What a worker runs has been called for, and has not ended. -/
theorem Inv.of_running (inv : Inv n s) (hnodup : s.enqueued.Nodup) {w : Nat} {task : T}
    (hw : s.workers[w]? = some (.running task)) : task ∈ s.enqueued ∧ task ∉ s.finished := by
  obtain ⟨rest, hrest⟩ := total_split inHand hw
  have hmem : task ∈ total inHand s.workers := by
    rw [hrest]
    exact Multiset.mem_add.mpr (.inl (Multiset.mem_singleton_self task))
  constructor
  · rw [← inv.order]
    apply List.mem_append_left
    rw [← Multiset.mem_coe, ← inv.ran]
    exact Multiset.mem_add.mpr (.inl hmem)
  · have hall : (total inHand s.workers + s.finished).Nodup := by
      rw [inv.ran]
      exact Multiset.coe_nodup.mpr (inv.started_nodup hnodup)
    intro hfinished
    exact Multiset.disjoint_left.mp (Multiset.nodup_add.mp hall).2.2 hmem
      (Multiset.mem_coe.mpr hfinished)

end History

end seamus.thread_pool
