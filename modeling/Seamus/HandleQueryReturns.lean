-- How the runs of `IndexManager::handle_query` end: every call comes back, whatever the other calls
-- on the shared `JoinableThreadPool` do, with its notifications and the waits that they end.
import Mathlib.Algebra.Order.BigOperators.Group.List
import Mathlib.Algebra.Order.Group.Nat
import Seamus.HandleQuery

open interleaving seamus.joinable_thread_pool seamus.query_results

namespace seamus.handle_query

variable {σ : Type} [LinearOrder σ]

/-! ## What is left to do -/

/-- The turns that a thread takes by itself. -/
def Turn.isOwn : Turn σ → Bool
  | .go _ | .notify _ | .work _ _ => true
  | _ => false

def Turn.isCall : Turn σ → Bool
  | .call _ => true
  | _ => false

/-- A bound on the turns to come of a call, and of the tasks it has yet to submit, when there are
no more calls than `calls`. -/
def callLeft (CHUNKS calls : Nat) (c : Call σ) : Nat :=
  match c.phase with
  | .submitting chunk => (calls + 7) * (CHUNKS - chunk) + 3
  | .joining _ | .joined => 1
  | .returned _ => 0

def left (CHUNKS calls : Nat) (s : System σ) : Nat :=
  joinable_thread_pool.left calls s.pool + total (callLeft CHUNKS calls) s.calls

/-- What a turn adds to the turns to come. -/
def adds (CHUNKS calls : Nat) : Turn σ → Nat
  | .call _ => (calls + 7) * CHUNKS + 4
  | .wakeWorker _ | .wakeJoiner _ => 2
  | _ => 0

/-- 1 for a call of `handle_query` that has come to its `join`. -/
def begun (c : Call σ) : Nat :=
  match c.phase with
  | .submitting _ => 0
  | _ => 1

variable {CHUNKS calls threads : Nat} {s s' : System σ} {turn : Turn σ}

omit [LinearOrder σ] in
/-- What depends on the phases alone is left alone by a task. -/
theorem total_of_append {f : Call σ → Nat} (hf : ∀ c collector, f { c with collector } = f c)
    (task : Capture) (reply : Option (List (LeanPage σ))) (s : System σ) :
    total f (append task reply s).calls = total f s.calls := by
  unfold append
  cases hc : s.calls[task.call]? with
  | none =>
    rw [List.modify_eq_self (List.getElem?_eq_none_iff.mp hc)]
  | some c =>
    rw [List.modify_eq_set_getElem?, hc]
    exact total_keep f hc (hf c _)

omit [LinearOrder σ] in
theorem call_pool (query : Bytes) (s : System σ) : (call query s).pool = s.pool := by
  unfold call
  split_ifs <;> rfl

theorem left_step (hjoins : s.pool.joiners.length ≤ calls) (h : step CHUNKS turn s = some s') :
    left CHUNKS calls s' < left CHUNKS calls s + adds CHUNKS calls turn := by
  have hset (k : Nat) (c c' : Call σ) (hc : s.calls[k]? = some c) :=
    total_set (callLeft CHUNKS calls) c' hc
  have hpoolLeft (poolTurn : joinable_thread_pool.Turn) {pool : joinable_thread_pool.System}
      (hpool : joinable_thread_pool.step poolTurn s.pool = some pool) :=
    joinable_thread_pool.left_step hjoins hpool
  unfold left
  cases step_moves h with
  | call query =>
    have hnew (c : Call σ) : total (callLeft CHUNKS calls) (s.calls ++ [c]) =
        total (callLeft CHUNKS calls) s.calls + callLeft CHUNKS calls c := by
      rw [total_append]
      rfl
    rw [call_pool]
    unfold call
    split_ifs
    · simp only [hnew, callLeft, adds]
      omega
    · simp only [hnew, callLeft, adds, Nat.sub_zero]
      omega
  | @submit k chunk c hc hphase hlt =>
    have hdo := hset k c { c with phase := .submitting (chunk + 1) } hc
    have hmore := hpoolLeft (.submit c.qid) rfl
    have hnext : CHUNKS - chunk = CHUNKS - (chunk + 1) + 1 := by omega
    simp only [callLeft, hphase, hnext, Nat.mul_add] at hdo
    simp only [setCall, adds, joinable_thread_pool.adds] at hmore ⊢
    omega
  | @join k chunk c hc hphase hge =>
    have hdo := hset k c { c with phase := .joining s.pool.joiners.length } hc
    have hmore := hpoolLeft (.callJoin c.qid) rfl
    simp only [callLeft, hphase] at hdo
    simp only [setCall, adds, joinable_thread_pool.adds] at hmore ⊢
    omega
  | @joined k joiner c j pool hc hphase hj hpool hback =>
    have hdo := hset k c { c with phase := .joined } hc
    have hless := hpoolLeft (.join joiner) hpool
    simp only [callLeft, hphase] at hdo
    simp only [setCall, adds, joinable_thread_pool.adds] at hless ⊢
    omega
  | @finish k c hc hphase =>
    have hdo := hset k c { c with phase := .returned (handleQuery c.collector) } hc
    simp only [callLeft, hphase] at hdo
    simp only [setCall, adds]
    omega
  | quiet poolTurn hpool hquiet hexit hadds =>
    have hless := hpoolLeft poolTurn hpool
    have hle : (bif turn.isWake then 2 else 0) ≤ adds CHUNKS calls turn := by
      cases turn <;> simp [Turn.isWake, adds]
    have hmore := hadds calls
    simp only
    omega
  | @reply w reply tt task pool hw htask hpool hran =>
    have hless := hpoolLeft (.work w (endingOf reply)) hpool
    rw [total_of_append fun _ _ => rfl]
    simp only [append, adds, joinable_thread_pool.adds] at hless ⊢
    omega

/-- A turn is one of the pool, or leaves the pool alone. -/
theorem pool_step (h : step CHUNKS turn s = some s') :
    s'.pool = s.pool ∨ ∃ poolTurn, joinable_thread_pool.step poolTurn s.pool = some s'.pool ∧
      poolTurn ≠ .exit := by
  cases step_moves h with
  | call query => exact .inl (call_pool query s)
  | finish => exact .inl rfl
  | @submit k chunk c => exact .inr ⟨.submit c.qid, rfl, by simp⟩
  | @join k chunk c => exact .inr ⟨.callJoin c.qid, rfl, by simp⟩
  | @joined k joiner c j pool hc hphase hj hpool => exact .inr ⟨.join joiner, hpool, by simp⟩
  | quiet poolTurn hpool hquiet hexit => exact .inr ⟨poolTurn, hpool, hexit⟩
  | @reply w reply tt task pool hw htask hpool =>
    exact .inr ⟨.work w (endingOf reply), hpool, by simp⟩

/-- Each `join` is that of a call. -/
theorem joiners_step (hfew : s.pool.joiners.length ≤ total begun s.calls)
    (h : step CHUNKS turn s = some s') : s'.pool.joiners.length ≤ total begun s'.calls := by
  cases step_moves h with
  | call query =>
    rw [call_pool]
    unfold call
    split_ifs <;> simp only [total_append] <;> omega
  | @submit k chunk c hc hphase hlt =>
    have hkeep : total begun (s.calls.set k { c with phase := .submitting (chunk + 1) }) =
        total begun s.calls := total_keep begun hc (by simp [begun, hphase])
    exact hfew.trans (Nat.le_of_eq hkeep.symm)
  | @join k chunk c hc hphase hge =>
    have hgain : total begun (s.calls.set k { c with phase := .joining s.pool.joiners.length }) =
        1 + total begun s.calls := total_gain begun hc (by simp [begun, hphase])
    simp only [setCall, callJoin, List.length_append, List.length_singleton, hgain]
    omega
  | @joined k joiner c j pool hc hphase hj hpool hback =>
    have hkeep : total begun (s.calls.set k { c with phase := .joined }) = total begun s.calls :=
      total_keep begun hc (by simp [begun, hphase])
    subst hback
    simpa [setCall, setJoiner, hkeep] using hfew
  | @finish k c hc hphase =>
    have hkeep : total begun (s.calls.set k { c with phase := .returned (handleQuery c.collector) }) =
        total begun s.calls := total_keep begun hc (by simp [begun, hphase])
    exact hfew.trans (Nat.le_of_eq hkeep.symm)
  | quiet poolTurn hpool hquiet => exact (Nat.le_of_eq hquiet.length).trans hfew
  | reply hw htask hpool hran =>
    subst hran
    rw [total_of_append fun _ _ => rfl]
    exact hfew

theorem calls_step (h : step CHUNKS turn s = some s') :
    s'.calls.length ≤ s.calls.length + if turn.isCall then 1 else 0 := by
  cases step_moves h with
  | call query =>
    rw [if_pos (show (Turn.call query : Turn σ).isCall = true from rfl)]
    unfold call
    split_ifs <;> simp
  | quiet => exact Nat.le_add_right _ _
  | reply => exact Nat.le_of_eq (List.length_modify _ _ _)
  | _ => exact Nat.le_of_eq List.length_set

omit [LinearOrder σ] in
theorem begun_le (calls : List (Call σ)) : total begun calls ≤ calls.length := by
  have hone : ∀ n ∈ calls.map begun, n ≤ 1 := by
    intro n hn
    obtain ⟨c, _, rfl⟩ := List.mem_map.mp hn
    unfold begun
    split <;> simp
  simpa [total] using List.sum_le_card_nsmul _ _ hone

/-! ## Who waits for what -/

/-- A call waits in a `join` of its own. -/
structure Apart (s : System σ) : Prop where
  open_ : ∀ (k : Nat) (c : Call σ) (joiner : Nat), s.calls[k]? = some c →
    c.phase = .joining joiner → ∃ j, s.pool.joiners[joiner]? = some j ∧ j.wait ≠ .returned
  one : ∀ (k k' : Nat) (c c' : Call σ) (joiner : Nat), s.calls[k]? = some c →
    s.calls[k']? = some c' → c.phase = .joining joiner → c'.phase = .joining joiner → k = k'

omit [LinearOrder σ] in
/-- The joins of a state that has no new ones. -/
theorem Apart.congr (h : Apart s)
    (hjoiners : ∀ (i : Nat) j, s.pool.joiners[i]? = some j → j.wait ≠ .returned →
      ∃ j', s'.pool.joiners[i]? = some j' ∧ j'.wait ≠ .returned)
    (hcalls : ∀ (k : Nat) (c : Call σ) (joiner : Nat), s'.calls[k]? = some c →
      c.phase = .joining joiner → ∃ c', s.calls[k]? = some c' ∧ c'.phase = .joining joiner) :
    Apart s' := by
  refine ⟨fun k c joiner hc hphase => ?_, fun k k' c c' joiner hc hc' hphase hphase' => ?_⟩
  · obtain ⟨m, hm, hjoining⟩ := hcalls k c joiner hc hphase
    obtain ⟨j, hj, hopen⟩ := h.open_ k m joiner hm hjoining
    exact hjoiners joiner j hj hopen
  · obtain ⟨m, hm, hjoining⟩ := hcalls k c joiner hc hphase
    obtain ⟨m', hm', hjoining'⟩ := hcalls k' c' joiner hc' hphase'
    exact h.one k k' m m' joiner hm hm' hjoining hjoining'

omit [LinearOrder σ] in
/-- A call goes on that does not come to its `join`. -/
theorem Apart.set (h : Apart s) {k : Nat} {c : Call σ}
    (hphase : ∀ joiner, c.phase ≠ .joining joiner) (hjoiners : s'.pool.joiners = s.pool.joiners)
    (hcalls : s'.calls = s.calls.set k c) : Apart s' := by
  refine h.congr (fun i j hj hopen => ⟨j, hjoiners ▸ hj, hopen⟩) fun i c' joiner hi hjoining => ?_
  rw [hcalls] at hi
  rcases getElem?_set_cases hi with ⟨rfl, rfl⟩ | ⟨_, hold⟩
  · exact absurd hjoining (hphase joiner)
  · exact ⟨c', hold, hjoining⟩

omit [LinearOrder σ] in
/-- A call begins its `join`. -/
theorem Apart.join (h : Apart s) {k : Nat} {c : Call σ} (id : Int) :
    Apart (setCall k { c with phase := .joining s.pool.joiners.length }
      { s with pool := callJoin id s.pool }) := by
  have hold (i : Nat) (c' : Call σ) (joiner : Nat) (hi : s.calls[i]? = some c')
      (hjoining : c'.phase = .joining joiner) : joiner < s.pool.joiners.length := by
    obtain ⟨j, hj, _⟩ := h.open_ i c' joiner hi hjoining
    exact (List.getElem?_eq_some_iff.mp hj).1
  refine ⟨fun i c' joiner hi hjoining => ?_, fun i i' m m' joiner hi hi' hjoining hjoining' => ?_⟩
  · rcases getElem?_set_cases hi with ⟨rfl, rfl⟩ | ⟨_, hother⟩
    · cases hjoining
      exact ⟨_, List.getElem?_concat_length, by simp⟩
    · obtain ⟨j, hj, hopen⟩ := h.open_ i c' joiner hother hjoining
      exact ⟨j, (List.getElem?_append_left (hold i c' joiner hother hjoining)).trans hj, hopen⟩
  · rcases getElem?_set_cases hi with ⟨rfl, rfl⟩ | ⟨_, hother⟩ <;>
      rcases getElem?_set_cases hi' with ⟨rfl, rfl⟩ | ⟨_, hother'⟩
    · rfl
    · cases hjoining
      exact absurd (hold i' m' _ hother' hjoining') (Nat.lt_irrefl _)
    · cases hjoining'
      exact absurd (hold i m _ hother hjoining) (Nat.lt_irrefl _)
    · exact h.one i i' m m' joiner hother hother' hjoining hjoining'

omit [LinearOrder σ] in
/-- A call comes out of its `join`. -/
theorem Apart.joined (h : Apart s) {k joiner : Nat} {c : Call σ} {j : Joiner}
    (hc : s.calls[k]? = some c) (hphase : c.phase = .joining joiner)
    (hjoiners : s'.pool.joiners = s.pool.joiners.set joiner j)
    (hcalls : s'.calls = s.calls.set k { c with phase := .joined }) : Apart s' := by
  have hother (i : Nat) (c' : Call σ) (joiner' : Nat) (hi : s'.calls[i]? = some c')
      (hjoining : c'.phase = .joining joiner') : s.calls[i]? = some c' ∧ joiner ≠ joiner' := by
    rw [hcalls] at hi
    rcases getElem?_set_cases hi with ⟨rfl, rfl⟩ | ⟨hne, hold⟩
    · cases hjoining
    · refine ⟨hold, ?_⟩
      rintro rfl
      exact hne (h.one i k c' c joiner hold hc hjoining hphase)
  refine ⟨fun i c' joiner' hi hjoining => ?_, fun i i' m m' joiner' hi hi' hjoining hjoining' => ?_⟩
  · obtain ⟨hold, hne⟩ := hother i c' joiner' hi hjoining
    obtain ⟨j', hj', hopen⟩ := h.open_ i c' joiner' hold hjoining
    rw [hjoiners]
    exact ⟨j', (List.getElem?_set_ne hne).trans hj', hopen⟩
  · exact h.one i i' m m' joiner' (hother i m joiner' hi hjoining).1
      (hother i' m' joiner' hi' hjoining').1 hjoining hjoining'

theorem apart_step (h : Apart s) (hstep : step CHUNKS turn s = some s') : Apart s' := by
  cases step_moves hstep with
  | call query =>
    refine h.congr (fun i j hj hopen => ⟨j, ?_, hopen⟩) fun k c joiner hc hphase => ?_
    · rw [call_pool]
      exact hj
    · unfold call at hc
      split_ifs at hc
      all_goals
        rcases getElem?_concat_cases hc with hold | ⟨_, rfl⟩
        · exact ⟨c, hold, hphase⟩
        · cases hphase
  | submit | finish => exact h.set (fun _ heq => by cases heq) rfl rfl
  | @join k chunk c => exact h.join c.qid
  | joined hc hphase hj hpool hback =>
    subst hback
    exact h.joined hc hphase rfl rfl
  | quiet poolTurn hpool hquiet =>
    refine h.congr (fun i j hj hopen => ?_) fun k c joiner hc hphase => ⟨c, hc, hphase⟩
    obtain ⟨j', hj', _, hback⟩ := hquiet.joiners i j hj
    exact ⟨j', hj', fun hreturned => hopen (hback hreturned)⟩
  | reply hw htask hpool hran =>
    subst hran
    refine h.congr (fun i j hj hopen => ⟨j, hj, hopen⟩) fun k c joiner hc hphase => ?_
    obtain ⟨c', hc', hsame, _⟩ := append_calls hc
    exact ⟨c', hc', hsame.symm.trans hphase⟩

/-- Where no thread can go on by itself, neither can the pool. -/
theorem Inv.pool_stuck (inv : Inv CHUNKS s)
    (hstuck : ∀ turn : Turn σ, turn.isOwn = true → step CHUNKS turn s = none) :
    (∀ w, joinable_thread_pool.workerStep w .returned s.pool = none) ∧
      ∀ w, notifyOne w s.pool = none := by
  refine ⟨fun w => ?_, fun w => Option.map_eq_none_iff.mp (hstuck (.notify w) rfl)⟩
  have hnone := hstuck (.work w none) rfl
  simp only [step, workerStep] at hnone
  split at hnone
  · rename_i tt hw
    have hlt := inv.captured_of_run (of_running inv.pool hw).1
    simp [List.getElem?_eq_getElem hlt, workerStep_running hw] at hnone
  · exact Option.map_eq_none_iff.mp hnone

theorem Inv.returned_of_stuck (inv : Inv CHUNKS s) (hwatched : Watched s.pool)
    (halive : Alive threads s.pool) (hapart : Apart s) (hthreads : 0 < threads)
    (hstuck : ∀ turn : Turn σ, turn.isOwn = true → step CHUNKS turn s = none)
    {c : Call σ} (hc : c ∈ s.calls) : ∃ pages, c.phase = .returned pages := by
  obtain ⟨hwork, hnotify⟩ := inv.pool_stuck hstuck
  obtain ⟨_, hnobody⟩ := inv.pool.at_rest hwatched halive hthreads hwork hnotify
  obtain ⟨k, hk⟩ := List.mem_iff_getElem?.mp hc
  have hnone := hstuck (.go k) rfl
  simp only [step, callStep, hk] at hnone
  cases hphase : c.phase with
  | submitting chunk =>
    simp only [hphase] at hnone
    split_ifs at hnone
  | joining joiner =>
    -- it neither sleeps nor has returned, and so it looks
    simp only [hphase, Option.map_eq_none_iff] at hnone
    obtain ⟨j, hj, hopen⟩ := hapart.open_ k c joiner hk hphase
    have hsleeps := hnobody j (List.mem_of_getElem? hj)
    simp only [joinStep, hj] at hnone
    cases hwait : j.wait with
    | returned => exact absurd hwait hopen
    | asleep => exact absurd hwait hsleeps
    | awake =>
      simp only [hwait] at hnone
      split_ifs at hnone
  | joined => simp [hphase] at hnone
  | returned pages => exact ⟨pages, rfl⟩

/-! ## All runs -/

/-- What a run keeps, for its end. -/
structure Running (CHUNKS threads : Nat) (s : System σ) : Prop where
  inv : Inv CHUNKS s
  watched : Watched s.pool
  alive : Alive threads s.pool
  apart : Apart s

theorem running_initial (CHUNKS threads : Nat) : Running CHUNKS threads (initial threads : System σ) :=
  ⟨inv_initial CHUNKS threads, watched_initial threads, alive_initial threads,
    fun _ _ _ hc => (nomatch hc), fun _ _ _ _ _ hc => nomatch hc⟩

theorem running_step (h : Running CHUNKS threads s) (hstep : step CHUNKS turn s = some s') :
    Running CHUNKS threads s' := by
  have hpool : Watched s'.pool ∧ Alive threads s'.pool := by
    rcases pool_step hstep with heq | ⟨poolTurn, hpool, hexit⟩
    · rw [heq]
      exact ⟨h.watched, h.alive⟩
    · exact ⟨watched_step h.watched hpool, alive_step h.alive hpool hexit⟩
  exact ⟨inv_step h.inv hstep, hpool.1, hpool.2, apart_step h.apart hstep⟩

/-- Every call comes back, whatever the other calls do and whichever chunks throw: a run has no
more turns than its calls and the wakeups that nobody asked for bring, and where no thread can go
on by itself, all calls have returned. -/
theorem every_call_returns {CHUNKS threads : Nat} (hthreads : 0 < threads) {turns : List (Turn σ)}
    {s : System σ} (h : exec (step CHUNKS) turns (initial threads) = some s) :
    turns.length ≤
        2 * threads + 2 + total (adds CHUNKS (turns.countP Turn.isCall)) turns ∧
      ((∀ turn : Turn σ, turn.isOwn = true → step CHUNKS turn s = none) →
        ∀ c ∈ s.calls, ∃ pages, c.phase = .returned pages) := by
  constructor
  · -- each join is of a call made so far, and a notification wakes no more threads than that
    let few (rest : List (Turn σ)) (t : System σ) : Prop :=
      t.pool.joiners.length ≤ total begun t.calls ∧
        t.calls.length + rest.countP Turn.isCall ≤ turns.countP Turn.isCall
    have hstart : few turns (initial threads) :=
      ⟨Nat.le_refl 0, Nat.le_of_eq (Nat.zero_add _)⟩
    have hkeeps : ∀ turn rest (t t' : System σ), few (turn :: rest) t →
        step CHUNKS turn t = some t' → few rest t' := by
      rintro turn rest t t' ⟨hfew, hcalls⟩ hstep
      refine ⟨joiners_step hfew hstep, ?_⟩
      have hmore := calls_step hstep
      rw [List.countP_cons] at hcalls
      omega
    have hlength := exec_length_le_ahead (left CHUNKS (turns.countP Turn.isCall))
      (adds CHUNKS (turns.countP Turn.isCall)) hkeeps (fun turn rest t t' ht hstep => ?_) hstart h
    · have hnone : left CHUNKS (turns.countP Turn.isCall) (initial threads : System σ) =
          2 * threads + 2 := left_initial _ threads
      omega
    · have hmany := begun_le t.calls
      exact left_step (ht.1.trans (by have hcalls := ht.2; omega)) hstep
  · intro hstuck c hc
    have hrun := exec_preserves (fun _ _ _ ht hstep => running_step ht hstep)
      (running_initial CHUNKS threads) h
    exact hrun.inv.returned_of_stuck hrun.watched hrun.alive hrun.apart hthreads hstuck hc

/-- Two calls sleep in their joins, and the end of the task of the first wakes both. The chunk of the
second throws. -/
theorem two_calls_return :
    let page : LeanPage Nat := ⟨[117], [], 5⟩
    let both : List (Turn Nat) := [.go 0, .go 1]
    let rest (w : Nat) : List (Turn Nat) := List.replicate 3 (.work w none)
    let turns := [Turn.call [97], .call [98]] ++ both ++ both ++ both ++ [.notify 0, .notify 0] ++
      [.work 0 none, .work 1 none, .work 0 (some [page])] ++ rest 0 ++ both ++
      [.work 1 none] ++ rest 1 ++ both ++ [.go 1]
    ∃ s : System Nat, exec (step 1) turns (initial 2) = some s ∧
      turns.length ≤ 2 * 2 + 2 + total (adds 1 2) turns ∧
      ∀ c ∈ s.calls, ∃ pages, c.phase = .returned pages := by
  intro page both rest turns
  have hrun : exec (step 1) turns (initial 2) = some _ := rfl
  obtain ⟨hlength, hreturned⟩ := every_call_returns (by decide) hrun
  refine ⟨_, hrun, hlength, hreturned fun turn hown => ?_⟩
  cases turn with
  | go k => rcases k with _ | _ | k <;> rfl
  | notify w => rfl
  | work w reply => rcases w with _ | _ | w <;> rfl
  | call query => cases hown
  | wakeWorker w => cases hown
  | wakeJoiner joiner => cases hown

end seamus.handle_query
