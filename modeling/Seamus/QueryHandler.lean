-- `QueryHandler::get_results`: a task for each machine on a `ThreadPool`, and a future for each
-- task. Calls run at the same time and share the pool.
import Seamus.QueryResults
import Seamus.QueryTree
import Seamus.ThreadPool

open interleaving seamus.query_results seamus.query_tree

namespace seamus.query_handler

/-! ## The source functions, cut where threads meet -/

/-- What the callable of a task has captured. -/
structure Task where
  /-- The call of `get_results`, for its promise. -/
  call : Nat
  machine : Nat
  input : Bytes
  deriving DecidableEq

/-- A call of `get_results`. -/
structure Call (σ : Type) where
  input : Bytes
  /-- The machines that have a task. -/
  sent : Nat
  /-- What the futures have given so far. -/
  hits : List (List (LeanPage σ))
  returned : Option (List (LeanPage σ))

structure System (σ : Type) where
  pool : thread_pool.System Task
  promises : Task → Option (List (LeanPage σ))
  calls : List (Call σ)
  /-- What each task got, local or remote. None where it caught an exception. -/
  replies : List (Task × Option (List (LeanPage σ)))

variable {σ : Type} [LinearOrder σ]

def initial (threads : Nat) : System σ := ⟨thread_pool.initial threads, fun _ => none, [], []⟩

/-- `parse_query_tree` throws. -/
def isRefused (input : Bytes) : Bool :=
  match parseQueryTree input with
  | .throw _ => true
  | _ => false

/-- The start of `get_results`. -/
def call (input : Bytes) (s : System σ) : System σ :=
  { s with calls := s.calls ++ [⟨input, 0, [], if isRefused input then some [] else none⟩] }

def setCall (k : Nat) (c : Call σ) (s : System σ) : System σ :=
  { s with calls := s.calls.set k c }

variable (NUM_MACHINES : Nat)

/-- The next section of a call: a task for the next machine, the next `futures[fi].get()`, or
the merge. -/
def callStep (k : Nat) (s : System σ) : Option (System σ) :=
  match s.calls[k]? with
  | none => none
  | some c =>
    if c.returned.isSome then none
    else if c.sent < NUM_MACHINES then
      (thread_pool.step (.enqueue none ⟨k, c.sent, c.input⟩) s.pool).map fun pool =>
        setCall k { c with sent := c.sent + 1 } { s with pool }
    else if c.hits.length < NUM_MACHINES then
      (s.promises ⟨k, c.hits.length, c.input⟩).map fun machineHits =>
        setCall k { c with hits := c.hits ++ [machineHits] } s
    else some (setCall k { c with returned := some (getResults c.hits) } s)

/-- The next section of a worker, with what the machine answers when it runs a task. A second
`set_value` throws out of the handler of the first. -/
def workerStep (w : Nat) (reply : Option (List (LeanPage σ))) (s : System σ) : Option (System σ) :=
  match s.pool.workers[w]? with
  | some (.running task) =>
    match s.promises task with
    | none =>
      (thread_pool.step (.work w .returned) s.pool).map fun pool =>
        { s with
          pool
          promises := Function.update s.promises task (some (reply.getD []))
          replies := s.replies ++ [(task, reply)] }
    | some _ => (thread_pool.step (.work w .thrown) s.pool).map fun pool => { s with pool }
  | _ => (thread_pool.step (.work w .returned) s.pool).map fun pool => { s with pool }

inductive Turn (σ : Type) where
  | call (input : Bytes)
  | go (k : Nat)
  | notify (w : Nat)
  | wake (w : Nat)
  | work (w : Nat) (reply : Option (List (LeanPage σ)))

def step (turn : Turn σ) (s : System σ) : Option (System σ) :=
  match turn with
  | .call input => some (call input s)
  | .go k => callStep NUM_MACHINES k s
  | .notify w => (thread_pool.step (.notify w) s.pool).map fun pool => { s with pool }
  | .wake w => (thread_pool.step (.wake w) s.pool).map fun pool => { s with pool }
  | .work w reply => workerStep w reply s

/-! ## What a turn can do -/

inductive Moves (s : System σ) : Turn σ → System σ → Prop where
  | call (input : Bytes) : Moves s (.call input) (call input s)
  | send {k : Nat} {c : Call σ} {pool : thread_pool.System Task} (hc : s.calls[k]? = some c)
      (hopen : c.returned = none) (hlt : c.sent < NUM_MACHINES)
      (hpool : thread_pool.step (.enqueue none ⟨k, c.sent, c.input⟩) s.pool = some pool) :
      Moves s (.go k) (setCall k { c with sent := c.sent + 1 } { s with pool })
  | collect {k : Nat} {c : Call σ} {machineHits : List (LeanPage σ)} (hc : s.calls[k]? = some c)
      (hopen : c.returned = none) (hsent : NUM_MACHINES ≤ c.sent)
      (hlt : c.hits.length < NUM_MACHINES)
      (hpromise : s.promises ⟨k, c.hits.length, c.input⟩ = some machineHits) :
      Moves s (.go k) (setCall k { c with hits := c.hits ++ [machineHits] } s)
  | merge {k : Nat} {c : Call σ} (hc : s.calls[k]? = some c) (hopen : c.returned = none)
      (hsent : NUM_MACHINES ≤ c.sent) (hhits : NUM_MACHINES ≤ c.hits.length) :
      Moves s (.go k) (setCall k { c with returned := some (getResults c.hits) } s)
  | quiet {turn : Turn σ} {poolTurn : thread_pool.Turn Task} {pool : thread_pool.System Task}
      (hpool : thread_pool.step poolTurn s.pool = some pool) (hcalled : poolTurn.called = [])
      (hended : poolTurn.ended s.pool = []) (hthrow : ∀ w, poolTurn ≠ .work w .thrown)
      (hexit : poolTurn ≠ .exit) (hadds : ∀ w, poolTurn = .wake w → turn = .wake w) :
      Moves s turn { s with pool }
  | answer {w : Nat} {reply : Option (List (LeanPage σ))} {task : Task}
      {pool : thread_pool.System Task} (hw : s.pool.workers[w]? = some (.running task))
      (hpromise : s.promises task = none)
      (hpool : thread_pool.step (.work w .returned) s.pool = some pool) :
      Moves s (.work w reply)
        { s with
          pool
          promises := Function.update s.promises task (some (reply.getD []))
          replies := s.replies ++ [(task, reply)] }
  | throw {w : Nat} {reply : Option (List (LeanPage σ))} {task : Task}
      {pool : thread_pool.System Task} (hw : s.pool.workers[w]? = some (.running task))
      (hpromise : s.promises task ≠ none)
      (hpool : thread_pool.step (.work w .thrown) s.pool = some pool) :
      Moves s (.work w reply) { s with pool }

section Turns

variable {NUM_MACHINES : Nat} {s s' : System σ} {turn : Turn σ}

theorem callStep_moves {k : Nat} (h : callStep NUM_MACHINES k s = some s') :
    Moves NUM_MACHINES s (.go k) s' := by
  unfold callStep at h
  cases hc : s.calls[k]? with
  | none =>
    rw [hc] at h
    cases h
  | some c =>
    simp only [hc] at h
    split_ifs at h with hreturned hsent hhits
    · obtain ⟨pool, hpool, rfl⟩ := Option.map_eq_some_iff.mp h
      exact .send hc (Option.not_isSome_iff_eq_none.mp hreturned) hsent hpool
    · obtain ⟨machineHits, hpromise, rfl⟩ := Option.map_eq_some_iff.mp h
      exact .collect hc (Option.not_isSome_iff_eq_none.mp hreturned) (Nat.le_of_not_lt hsent) hhits
        hpromise
    · cases h
      exact .merge hc (Option.not_isSome_iff_eq_none.mp hreturned) (Nat.le_of_not_lt hsent)
        (Nat.le_of_not_lt hhits)

theorem workerStep_moves {w : Nat} {reply : Option (List (LeanPage σ))}
    (h : workerStep w reply s = some s') : Moves NUM_MACHINES s (.work w reply) s' := by
  unfold workerStep at h
  split at h
  · rename_i task hw
    split at h
    · rename_i hpromise
      obtain ⟨pool, hpool, rfl⟩ := Option.map_eq_some_iff.mp h
      exact .answer hw hpromise hpool
    · rename_i hpromise
      obtain ⟨pool, hpool, rfl⟩ := Option.map_eq_some_iff.mp h
      exact .throw hw (by rw [hpromise]; exact Option.some_ne_none _) hpool
  · rename_i hw
    obtain ⟨pool, hpool, rfl⟩ := Option.map_eq_some_iff.mp h
    exact .quiet hpool rfl (thread_pool.ended_of_not_running hw) (fun w => by simp) (by simp)
      (fun w h => nomatch h)

theorem step_moves (h : step NUM_MACHINES turn s = some s') : Moves NUM_MACHINES s turn s' := by
  cases turn with
  | call input =>
    cases h
    exact .call input
  | go k => exact callStep_moves h
  | notify w =>
    obtain ⟨pool, hpool, rfl⟩ := Option.map_eq_some_iff.mp h
    exact .quiet hpool rfl rfl (fun w => by simp) (by simp) (fun w h => nomatch h)
  | wake w =>
    obtain ⟨pool, hpool, rfl⟩ := Option.map_eq_some_iff.mp h
    exact .quiet hpool rfl rfl (fun w => by simp) (by simp) (fun v heq => by cases heq; rfl)
  | work w reply => exact workerStep_moves h

end Turns

/-! ## The invariant -/

/-- A call knows its machines, and its hits are what the promises hold. -/
structure CallInv (NUM_MACHINES : Nat) (promises : Task → Option (List (LeanPage σ))) (k : Nat)
    (c : Call σ) : Prop where
  sent_le : c.sent ≤ NUM_MACHINES
  hits_le : c.hits.length ≤ NUM_MACHINES
  hits : ∀ i pages, c.hits[i]? = some pages → promises ⟨k, i, c.input⟩ = some pages
  refused : isRefused c.input = true → c.sent = 0 ∧ c.returned = some []
  returned : ∀ pages, c.returned = some pages → isRefused c.input = false →
    c.hits.length = NUM_MACHINES ∧ pages = getResults c.hits

structure Inv (threads : Nat) (s : System σ) : Prop where
  pool : thread_pool.Inv threads s.pool
  alive : s.pool.terminated = false ∧ s.pool.exitFlag = false
  nodup : s.pool.enqueued.Nodup
  /-- A task is for a machine that its call has come to. -/
  enqueued : ∀ task, task ∈ s.pool.enqueued ↔
    ∃ c, s.calls[task.call]? = some c ∧ task.machine < c.sent ∧ task.input = c.input
  replied : s.replies.map Prod.fst = s.pool.finished
  /-- The promise of a task is set from its end on. -/
  promises : ∀ task pages, s.promises task = some pages ↔
    ∃ reply : Option (List (LeanPage σ)), (task, reply) ∈ s.replies ∧ pages = reply.getD []
  calls : ∀ k c, s.calls[k]? = some c → CallInv NUM_MACHINES s.promises k c

theorem inv_initial (threads : Nat) : Inv NUM_MACHINES threads (initial threads : System σ) where
  pool := thread_pool.inv_initial threads
  alive := ⟨rfl, rfl⟩
  nodup := List.nodup_nil
  enqueued task := by simp [initial, thread_pool.initial]
  replied := rfl
  promises task pages := by simp [initial]
  calls k c hc := nomatch hc

section Invariant

variable {NUM_MACHINES threads : Nat} {s s' : System σ} {turn : Turn σ}

theorem CallInv.update {promises : Task → Option (List (LeanPage σ))} {k : Nat} {c : Call σ}
    (h : CallInv NUM_MACHINES promises k c) {task : Task} (hnone : promises task = none)
    (pages : List (LeanPage σ)) :
    CallInv NUM_MACHINES (Function.update promises task (some pages)) k c := by
  refine ⟨h.sent_le, h.hits_le, fun i hits hi => ?_, h.refused, h.returned⟩
  have hset := h.hits i hits hi
  have hne : (⟨k, i, c.input⟩ : Task) ≠ task := by
    rintro rfl
    rw [hnone] at hset
    cases hset
  rw [Function.update_of_ne hne]
  exact hset

/-- A turn of the pool that neither begins nor ends a task. -/
theorem Inv.quiet (inv : Inv NUM_MACHINES threads s) {poolTurn : thread_pool.Turn Task}
    {pool : thread_pool.System Task} (hpool : thread_pool.step poolTurn s.pool = some pool)
    (hcalled : poolTurn.called = []) (hended : poolTurn.ended s.pool = [])
    (hthrow : ∀ w, poolTurn ≠ .work w .thrown) (hexit : poolTurn ≠ .exit) :
    Inv NUM_MACHINES threads { s with pool } := by
  obtain ⟨henqueued, hfinished⟩ := thread_pool.step_history hpool
  obtain ⟨hrunning, hflag⟩ := thread_pool.step_alive hpool hthrow hexit
  rw [hcalled, List.append_nil] at henqueued
  rw [hended, List.append_nil] at hfinished
  refine ⟨thread_pool.inv_step inv.pool hpool, ⟨hrunning, hflag.trans inv.alive.2⟩, ?_, ?_, ?_,
    inv.promises, inv.calls⟩
  · rw [henqueued]
    exact inv.nodup
  · rw [henqueued]
    exact inv.enqueued
  · rw [hfinished]
    exact inv.replied

theorem Inv.called (inv : Inv NUM_MACHINES threads s) (input : Bytes) :
    Inv NUM_MACHINES threads (call input s) := by
  let c : Call σ := ⟨input, 0, [], if isRefused input then some [] else none⟩
  have hnew : CallInv NUM_MACHINES s.promises s.calls.length c := by
    refine ⟨Nat.zero_le _, Nat.zero_le _, fun i pages h => (nomatch h), fun hr => ⟨rfl, ?_⟩, ?_⟩
    · exact if_pos hr
    · intro pages hpages hr
      have hnone : c.returned = none := if_neg (Bool.eq_false_iff.mp hr)
      rw [hnone] at hpages
      cases hpages
  refine ⟨inv.pool, inv.alive, inv.nodup, fun task => ?_, inv.replied, inv.promises, ?_⟩
  · refine (inv.enqueued task).trans ⟨?_, ?_⟩
    · rintro ⟨c', hc', hlt, hinput⟩
      exact ⟨c', (List.getElem?_append_left (List.getElem?_eq_some_iff.mp hc').1).trans hc', hlt,
        hinput⟩
    · rintro ⟨c', hc', hlt, hinput⟩
      rcases getElem?_concat_cases hc' with hold | ⟨_, rfl⟩
      · exact ⟨c', hold, hlt, hinput⟩
      · exact absurd hlt (Nat.not_lt_zero _)
  · intro k c' hc'
    rcases getElem?_concat_cases hc' with hold | ⟨rfl, rfl⟩
    · exact inv.calls k c' hold
    · exact hnew

/-- A call goes on that has the same tasks. -/
theorem Inv.moved (inv : Inv NUM_MACHINES threads s) {k : Nat} {c c' : Call σ}
    (hc : s.calls[k]? = some c) (hinput : c'.input = c.input) (hsent : c'.sent = c.sent)
    (hcall : CallInv NUM_MACHINES s.promises k c') :
    Inv NUM_MACHINES threads (setCall k c' s) := by
  refine ⟨inv.pool, inv.alive, inv.nodup, fun task => ?_, inv.replied, inv.promises, ?_⟩
  · refine (inv.enqueued task).trans ?_
    unfold setCall
    by_cases heq : k = task.call
    · subst heq
      simp only [List.getElem?_set_self (List.getElem?_eq_some_iff.mp hc).1, hc,
        Option.some.injEq, exists_eq_left', hinput, hsent]
    · simp only [List.getElem?_set_ne heq]
  · intro j c'' hj
    rcases getElem?_set_cases hj with ⟨rfl, rfl⟩ | ⟨_, hold⟩
    · exact hcall
    · exact inv.calls j c'' hold

theorem Inv.sent (inv : Inv NUM_MACHINES threads s) {k : Nat} {c : Call σ}
    {pool : thread_pool.System Task} (hc : s.calls[k]? = some c) (hopen : c.returned = none)
    (hlt : c.sent < NUM_MACHINES)
    (hpool : thread_pool.step (.enqueue none ⟨k, c.sent, c.input⟩) s.pool = some pool) :
    Inv NUM_MACHINES threads (setCall k { c with sent := c.sent + 1 } { s with pool }) := by
  obtain ⟨henqueued, hfinished⟩ := thread_pool.step_history hpool
  obtain ⟨hrunning, hflag⟩ := thread_pool.step_alive hpool (fun w => by simp) (by simp)
  have hk : k < s.calls.length := (List.getElem?_eq_some_iff.mp hc).1
  have hmine := inv.calls k c hc
  simp only [thread_pool.Turn.called] at henqueued
  simp only [thread_pool.Turn.ended, List.append_nil] at hfinished
  refine ⟨thread_pool.inv_step inv.pool hpool, ⟨hrunning, hflag.trans inv.alive.2⟩, ?_, ?_, ?_,
    inv.promises, ?_⟩
  · refine henqueued ▸ List.nodup_append.mpr ⟨inv.nodup, List.nodup_singleton _, ?_⟩
    rintro task htask _ hnew rfl
    rw [List.mem_singleton.mp hnew] at htask
    obtain ⟨c', hc', hlt', _⟩ := (inv.enqueued _).mp htask
    rw [hc] at hc'
    cases hc'
    exact Nat.lt_irrefl _ hlt'
  · intro task
    unfold setCall
    rw [henqueued, List.mem_append, List.mem_singleton, inv.enqueued]
    by_cases heq : k = task.call
    · subst heq
      simp only [List.getElem?_set_self hk, hc, Option.some.injEq, exists_eq_left']
      obtain ⟨_, machine, input⟩ := task
      simp only [Task.mk.injEq, true_and, ← or_and_right, Nat.lt_succ_iff_lt_or_eq]
    · simp only [List.getElem?_set_ne heq]
      refine or_iff_left fun hnew => heq ?_
      rw [hnew]
  · exact inv.replied.trans hfinished.symm
  · intro j c' hj
    rcases getElem?_set_cases hj with ⟨rfl, rfl⟩ | ⟨_, hold⟩
    · refine ⟨hlt, hmine.hits_le, hmine.hits, fun hr => ?_, hmine.returned⟩
      rw [(hmine.refused hr).2] at hopen
      cases hopen
    · exact inv.calls j c' hold

theorem Inv.collected (inv : Inv NUM_MACHINES threads s) {k : Nat} {c : Call σ}
    {machineHits : List (LeanPage σ)} (hc : s.calls[k]? = some c) (hopen : c.returned = none)
    (hlt : c.hits.length < NUM_MACHINES)
    (hpromise : s.promises ⟨k, c.hits.length, c.input⟩ = some machineHits) :
    Inv NUM_MACHINES threads (setCall k { c with hits := c.hits ++ [machineHits] } s) := by
  have hmine := inv.calls k c hc
  refine inv.moved hc rfl rfl ⟨hmine.sent_le, ?_, fun i pages hi => ?_, fun hr => ?_, ?_⟩
  · rw [List.length_append]
    exact hlt
  · rcases getElem?_concat_cases hi with hold | ⟨rfl, rfl⟩
    · exact hmine.hits i pages hold
    · exact hpromise
  · rw [(hmine.refused hr).2] at hopen
    cases hopen
  · intro pages hpages
    rw [hopen] at hpages
    cases hpages

theorem Inv.merged (inv : Inv NUM_MACHINES threads s) {k : Nat} {c : Call σ}
    (hc : s.calls[k]? = some c) (hopen : c.returned = none)
    (hhits : NUM_MACHINES ≤ c.hits.length) :
    Inv NUM_MACHINES threads (setCall k { c with returned := some (getResults c.hits) } s) := by
  have hmine := inv.calls k c hc
  refine inv.moved hc rfl rfl ⟨hmine.sent_le, hmine.hits_le, hmine.hits, fun hr => ?_, ?_⟩
  · rw [(hmine.refused hr).2] at hopen
    cases hopen
  · rintro pages hpages _
    cases hpages
    exact ⟨Nat.le_antisymm hmine.hits_le hhits, rfl⟩

theorem Inv.promise_iff (inv : Inv NUM_MACHINES threads s) (task : Task) :
    s.promises task ≠ none ↔ task ∈ s.pool.finished := by
  rw [← inv.replied, List.mem_map, Option.ne_none_iff_exists']
  constructor
  · rintro ⟨pages, hpages⟩
    obtain ⟨reply, hmem, _⟩ := (inv.promises task pages).mp hpages
    exact ⟨(task, reply), hmem, rfl⟩
  · rintro ⟨⟨_, reply⟩, hmem, rfl⟩
    exact ⟨reply.getD [], (inv.promises _ _).mpr ⟨reply, hmem, rfl⟩⟩

theorem Inv.answered (inv : Inv NUM_MACHINES threads s) {w : Nat} {task : Task}
    (reply : Option (List (LeanPage σ))) {pool : thread_pool.System Task}
    (hw : s.pool.workers[w]? = some (.running task)) (hpromise : s.promises task = none)
    (hpool : thread_pool.step (.work w .returned) s.pool = some pool) :
    Inv NUM_MACHINES threads
      { s with
        pool
        promises := Function.update s.promises task (some (reply.getD []))
        replies := s.replies ++ [(task, reply)] } := by
  obtain ⟨henqueued, hfinished⟩ := thread_pool.step_history hpool
  obtain ⟨hrunning, hflag⟩ := thread_pool.step_alive hpool (fun w => by simp) (by simp)
  simp only [thread_pool.Turn.called, List.append_nil] at henqueued
  rw [thread_pool.ended_of_running hw] at hfinished
  refine ⟨thread_pool.inv_step inv.pool hpool, ⟨hrunning, hflag.trans inv.alive.2⟩, ?_, ?_, ?_, ?_,
    fun k c hc => (inv.calls k c hc).update hpromise _⟩
  · rw [henqueued]
    exact inv.nodup
  · rw [henqueued]
    exact inv.enqueued
  · rw [hfinished, List.map_append, inv.replied, List.map_singleton]
  · intro task' pages
    by_cases heq : task' = task
    · subst heq
      have hfresh : ∀ reply', (task', reply') ∉ s.replies := by
        intro reply' hmem
        rw [(inv.promises task' _).mpr ⟨reply', hmem, rfl⟩] at hpromise
        cases hpromise
      simp [hfresh, eq_comm]
    · simp [heq, inv.promises]

theorem inv_step (inv : Inv NUM_MACHINES threads s) (h : step NUM_MACHINES turn s = some s') :
    Inv NUM_MACHINES threads s' := by
  cases step_moves h with
  | call input => exact inv.called input
  | send hc hopen hlt hpool => exact inv.sent hc hopen hlt hpool
  | collect hc hopen hsent hlt hpromise => exact inv.collected hc hopen hlt hpromise
  | merge hc hopen hsent hhits => exact inv.merged hc hopen hhits
  | quiet hpool hcalled hended hthrow hexit _ => exact inv.quiet hpool hcalled hended hthrow hexit
  | answer hw hpromise hpool => exact inv.answered _ hw hpromise hpool
  | throw hw hpromise hpool =>
    exact absurd ((inv.promise_iff _).mp hpromise) (inv.pool.of_running inv.nodup hw).2

theorem exists_answers {α β : Type} {P : Nat → α → Prop} {f : α → β} (hits : List β)
    (h : ∀ i b, hits[i]? = some b → ∃ a, P i a ∧ b = f a) :
    ∃ answers : List α, answers.map f = hits ∧ ∀ i a, answers[i]? = some a → P i a := by
  have hall : ∀ i : Fin hits.length, ∃ a, P i a ∧ hits[i] = f a :=
    fun i => h i hits[i] (List.getElem?_eq_getElem i.isLt)
  choose answer hanswer using hall
  refine ⟨List.ofFn answer, ?_, ?_⟩
  · rw [List.map_ofFn]
    refine (congrArg List.ofFn (funext fun i => ?_)).trans (@List.ofFn_getElem β hits)
    exact (hanswer i).2.symm
  · intro i a hi
    obtain ⟨hlt, rfl⟩ := List.getElem?_eq_some_iff.mp hi
    rw [List.getElem_ofFn]
    exact (hanswer ⟨i, List.length_ofFn (f := answer) ▸ hlt⟩).1

/-- What a call returns is made of one answer of each machine, in their order, and a machine
that fails counts as one without hits. -/
theorem Inv.result (inv : Inv NUM_MACHINES threads s) {k : Nat} {c : Call σ}
    {pages : List (LeanPage σ)} (hc : s.calls[k]? = some c) (hreturned : c.returned = some pages) :
    if isRefused c.input then pages = [] ∧ ∀ task ∈ s.pool.enqueued, task.call ≠ k
    else ∃ answers : List (Option (List (LeanPage σ))), answers.length = NUM_MACHINES ∧
      (∀ i reply, answers[i]? = some reply → (⟨k, i, c.input⟩, reply) ∈ s.replies) ∧
      pages = getResults (answers.map fun reply => reply.getD []) := by
  have hmine := inv.calls k c hc
  cases hr : isRefused c.input with
  | true =>
    obtain ⟨hsent, hnone⟩ := hmine.refused hr
    rw [hnone] at hreturned
    cases hreturned
    refine ⟨rfl, ?_⟩
    rintro task htask rfl
    obtain ⟨c', hc', hlt, _⟩ := (inv.enqueued task).mp htask
    rw [hc] at hc'
    cases hc'
    rw [hsent] at hlt
    exact Nat.not_lt_zero _ hlt
  | false =>
    obtain ⟨hlength, hpages⟩ := hmine.returned pages hreturned hr
    obtain ⟨answers, hmap, hanswers⟩ := exists_answers c.hits fun i b hi =>
      (inv.promises _ b).mp (hmine.hits i b hi)
    refine ⟨answers, ?_, hanswers, ?_⟩
    · rw [← hlength, ← hmap, List.length_map]
    · rw [hpages, ← hmap]

end Invariant

/-- Whatever the threads do, on any number of workers, machines and calls at a time: no promise is
set twice, each machine answers a call once, and what a call returns does not depend on when the
answers come. -/
theorem results_of_replies {NUM_MACHINES threads : Nat} {turns : List (Turn σ)} {s : System σ}
    (h : exec (step NUM_MACHINES) turns (initial threads) = some s) :
    s.pool.terminated = false ∧ s.pool.enqueued.Nodup ∧ (s.replies.map Prod.fst).Nodup ∧
      ∀ k c pages, s.calls[k]? = some c → c.returned = some pages →
        if isRefused c.input then pages = [] ∧ ∀ task ∈ s.pool.enqueued, task.call ≠ k
        else ∃ answers : List (Option (List (LeanPage σ))), answers.length = NUM_MACHINES ∧
          (∀ i reply, answers[i]? = some reply → (⟨k, i, c.input⟩, reply) ∈ s.replies) ∧
          pages = getResults (answers.map fun reply => reply.getD []) := by
  have inv : Inv NUM_MACHINES threads s :=
    exec_preserves (fun _ _ _ inv hstep => inv_step inv hstep) (inv_initial NUM_MACHINES threads) h
  refine ⟨inv.alive.1, inv.nodup, ?_, fun k c pages hc hreturned => inv.result hc hreturned⟩
  rw [inv.replied]
  exact inv.pool.finished_nodup inv.nodup

/-- Two machines on two workers. The second machine answers first, and the first fails. -/
theorem second_answers_first :
    let page : LeanPage Nat := ⟨[117], [], 5⟩
    let turns := [Turn.call [97], .go 0, .go 0, .work 0 none, .work 1 none, .work 1 (some [page]),
      .work 0 none, .go 0, .go 0, .go 0]
    ∃ (s : System Nat) (c : Call Nat) (pages : List (LeanPage Nat)),
      exec (step 2) turns (initial 2) = some s ∧ s.calls[0]? = some c ∧ c.returned = some pages ∧
      isRefused c.input = false ∧
      ∃ answers : List (Option (List (LeanPage Nat))), answers.length = 2 ∧
        (∀ i reply, answers[i]? = some reply → (⟨0, i, c.input⟩, reply) ∈ s.replies) ∧
        pages = getResults (answers.map fun reply => reply.getD []) := by
  intro page turns
  have hrun : exec (step 2) turns (initial 2) = some _ := rfl
  have haccepted : isRefused [97] = false := by decide
  have hresult := (results_of_replies hrun).2.2.2 0 _ _ rfl rfl
  refine ⟨_, _, _, hrun, rfl, rfl, haccepted, ?_⟩
  rw [if_neg (by rw [haccepted]; exact Bool.false_ne_true)] at hresult
  exact hresult

/-! ## How a run ends -/

/-- The turns that a thread takes by itself. -/
def Turn.isOwn : Turn σ → Bool
  | .go _ | .notify _ | .work _ _ => true
  | _ => false

/-- A bound on the turns to come of a call, and of the tasks it has yet to send. -/
def callLeft (NUM_MACHINES : Nat) (c : Call σ) : Nat :=
  bif c.returned.isSome then 0
  else 6 * (NUM_MACHINES - c.sent) + (NUM_MACHINES - c.hits.length) + 1

def left (NUM_MACHINES : Nat) (s : System σ) : Nat :=
  thread_pool.left s.pool + total (callLeft NUM_MACHINES) s.calls

/-- What a turn adds to the turns to come. -/
def adds (NUM_MACHINES : Nat) : Turn σ → Nat
  | .call _ => 7 * NUM_MACHINES + 2
  | .wake _ => 2
  | _ => 0

section Endings

variable {NUM_MACHINES threads : Nat} {s s' : System σ} {turn : Turn σ}

omit [LinearOrder σ] in
theorem adds_of_quiet {poolTurn : thread_pool.Turn Task} (hcalled : poolTurn.called = [])
    (hadds : ∀ w, poolTurn = .wake w → turn = .wake w) :
    thread_pool.adds poolTurn ≤ adds NUM_MACHINES turn := by
  cases poolTurn with
  | enqueue caller task => cases hcalled
  | wake w =>
    rw [hadds w rfl]
    exact Nat.le_refl 2
  | _ => exact Nat.zero_le _

theorem left_step (inv : Inv NUM_MACHINES threads s) (h : step NUM_MACHINES turn s = some s') :
    left NUM_MACHINES s' < left NUM_MACHINES s + adds NUM_MACHINES turn := by
  have hset : ∀ (k : Nat) (c c' : Call σ), s.calls[k]? = some c →
      total (callLeft NUM_MACHINES) (s.calls.set k c') + callLeft NUM_MACHINES c =
        total (callLeft NUM_MACHINES) s.calls + callLeft NUM_MACHINES c' :=
    fun k c c' hc => total_set (callLeft NUM_MACHINES) c' hc
  unfold left
  cases step_moves h with
  | call input =>
    unfold call
    simp only [total_append, adds]
    have hnew : total (callLeft NUM_MACHINES)
        [(⟨input, 0, [], if isRefused input then some [] else none⟩ : Call σ)] ≤
          7 * NUM_MACHINES + 1 := by
      simp only [total, List.map_singleton, List.sum_singleton, callLeft]
      split <;> simp
      omega
    omega
  | @send k c pool hc hopen hlt hpool =>
    have hdo := hset k c { c with sent := c.sent + 1 } hc
    have hpoolLeft := thread_pool.left_step hpool
    simp only [setCall, callLeft, hopen, Option.isSome_none, cond_false, adds, thread_pool.adds]
      at hdo hpoolLeft ⊢
    omega
  | @collect k c machineHits hc hopen hsent hlt hpromise =>
    have hdo := hset k c { c with hits := c.hits ++ [machineHits] } hc
    simp only [setCall, callLeft, hopen, Option.isSome_none, cond_false, adds, List.length_append,
      List.length_singleton] at hdo ⊢
    omega
  | @merge k c hc hopen hsent hhits =>
    have hdo := hset k c { c with returned := some (getResults c.hits) } hc
    simp only [setCall, callLeft, hopen, Option.isSome_none, Option.isSome_some, cond_false,
      cond_true, adds] at hdo ⊢
    omega
  | quiet hpool hcalled hended hthrow hexit hadds =>
    have hpoolLeft := thread_pool.left_step hpool
    have hle : thread_pool.adds _ ≤ adds NUM_MACHINES turn := adds_of_quiet hcalled hadds
    simp only
    omega
  | answer hw hpromise hpool =>
    have hpoolLeft := thread_pool.left_step hpool
    simp only [adds, thread_pool.adds] at hpoolLeft ⊢
    omega
  | throw hw hpromise hpool =>
    exact absurd ((inv.promise_iff _).mp hpromise) (inv.pool.of_running inv.nodup hw).2

/-- Where no thread can go on by itself, the pool has run all tasks. -/
theorem Inv.all_finished (inv : Inv NUM_MACHINES threads s) (hthreads : 0 < threads)
    (hstuck : ∀ turn : Turn σ, turn.isOwn = true → step NUM_MACHINES turn s = none) :
    s.pool.finished.Perm s.pool.enqueued := by
  have hnotified : s.pool.notified = false := by
    by_contra hnot
    have hexit := inv.pool.exit_of_notified (Bool.not_eq_false _ ▸ hnot)
    rw [inv.alive.2] at hexit
    cases hexit
  refine (inv.pool.at_rest hthreads inv.alive.1 fun poolTurn hown => ?_).2.1
  cases poolTurn with
  | notify w => exact Option.map_eq_none_iff.mp (hstuck (.notify w) rfl)
  | work w ending =>
    cases ending with
    | thrown => cases hown
    | returned =>
      have hnone := hstuck (.work w none) rfl
      simp only [step, workerStep] at hnone
      split at hnone
      · rename_i task hw
        have hfresh : s.promises task = none := by
          by_contra hsome
          exact (inv.pool.of_running inv.nodup hw).2 ((inv.promise_iff task).mp hsome)
        simp only [hfresh] at hnone
        exact Option.map_eq_none_iff.mp hnone
      · exact Option.map_eq_none_iff.mp hnone
  | notifyAll => simp [thread_pool.step, thread_pool.notifyAll, inv.alive]
  | join => simp [thread_pool.step, thread_pool.joinNext, inv.alive, hnotified]
  | enqueue caller task => cases hown
  | wake w => cases hown
  | exit => cases hown

theorem Inv.returned_of_stuck (inv : Inv NUM_MACHINES threads s) (hthreads : 0 < threads)
    (hstuck : ∀ turn : Turn σ, turn.isOwn = true → step NUM_MACHINES turn s = none)
    {c : Call σ} (hc : c ∈ s.calls) : c.returned.isSome = true := by
  by_contra hopen
  obtain ⟨k, hk, heq⟩ := List.getElem_of_mem hc
  have hget : s.calls[k]? = some c := (List.getElem?_eq_getElem hk).trans (congrArg some heq)
  have hnone := hstuck (.go k) rfl
  simp only [step, callStep, hget, hopen, if_false] at hnone
  split_ifs at hnone with hsent hhits
  · have hpush := Option.map_eq_none_iff.mp hnone
    simp [thread_pool.step, thread_pool.enqueueTask, inv.alive] at hpush
  · have hpromise := Option.map_eq_none_iff.mp hnone
    have hmem : (⟨k, c.hits.length, c.input⟩ : Task) ∈ s.pool.enqueued :=
      (inv.enqueued _).mpr ⟨c, hget, by simp only; omega, rfl⟩
    have hset := (inv.promise_iff _).mpr ((inv.all_finished hthreads hstuck).mem_iff.mpr hmem)
    exact hset hpromise

end Endings

/-- Every call comes back, whatever the other calls do and in whatever order the machines answer,
when each machine answers or fails. -/
theorem calls_return {NUM_MACHINES threads : Nat} (hthreads : 0 < threads)
    {turns : List (Turn σ)} {s : System σ}
    (h : exec (step NUM_MACHINES) turns (initial threads) = some s) :
    turns.length ≤ 3 * threads + 3 + total (adds NUM_MACHINES) turns ∧
      ((∀ turn : Turn σ, turn.isOwn = true → step NUM_MACHINES turn s = none) →
        ∀ c ∈ s.calls, c.returned.isSome = true) := by
  have hkeeps : ∀ turn (t t' : System σ), Inv NUM_MACHINES threads t →
      step NUM_MACHINES turn t = some t' → Inv NUM_MACHINES threads t' :=
    fun _ _ _ inv hstep => inv_step inv hstep
  have hlength := exec_length_le (left NUM_MACHINES) (adds NUM_MACHINES) hkeeps
    (fun _ _ _ inv hstep => left_step inv hstep) (inv_initial NUM_MACHINES threads) h
  have hstart : left NUM_MACHINES (initial threads : System σ) = 3 * threads + 3 :=
    thread_pool.left_initial threads
  rw [hstart] at hlength
  refine ⟨by omega, fun hstuck c hc => ?_⟩
  have hinv := exec_preserves hkeeps (inv_initial NUM_MACHINES threads) h
  exact hinv.returned_of_stuck hthreads hstuck hc

/-- Two calls on two machines and two workers, which have fallen asleep before. Two notifications
find no sleeper, and both calls have an answer that fails. -/
theorem two_calls_get_results :
    let page : LeanPage Nat := ⟨[117], [], 5⟩
    let both : List (Turn Nat) := [.go 0, .go 1]
    let takeTasks : List (Turn Nat) := [.work 1 none, .work 0 none]
    let turns := takeTasks ++ [.call [97], .call [98]] ++ both ++ [.notify 1, .go 0, .notify 0] ++
      takeTasks ++ [.go 1, .notify 0, .notify 0, .work 0 (some [page]), .work 1 none] ++
      takeTasks ++ [.work 1 (some [page]), .work 0 none] ++ both ++ both ++ both ++ takeTasks
    ∃ s : System Nat, exec (step 2) turns (initial 2) = some s ∧
      turns.length ≤ 3 * 2 + 3 + total (adds 2) turns ∧
      ∀ c ∈ s.calls, c.returned.isSome = true := by
  intro page both takeTasks turns
  have hrun : exec (step 2) turns (initial 2) = some _ := rfl
  obtain ⟨hlength, hreturned⟩ := calls_return (by decide) hrun
  refine ⟨_, hrun, hlength, hreturned fun turn hown => ?_⟩
  cases turn with
  | go k => rcases k with _ | _ | k <;> rfl
  | notify w => rfl
  | work w reply => rcases w with _ | _ | w <;> rfl
  | call input => cases hown
  | wake w => cases hown

end seamus.query_handler
