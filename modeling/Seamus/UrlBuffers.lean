-- `url_buffers.h`: the requests that `add_urls` reads out of the links of a page go through one
-- buffer per machine, which the parsers share, and leave it in batches.
import Seamus.LinkStream
import Seamus.Library.Interleaving

open interleaving seamus.html_tags seamus.html seamus.url_filter seamus.url_store
open seamus.link_stream

namespace seamus.url_buffers

/-! ## The source functions, cut where threads meet -/

def CRAWLER_OUTBOUND_BATCH_SIZE : Nat := 4096

def CRAWLER_STARTUP_OUTBOUND_BATCH_SIZE : Nat := 16

/-- The loop is that of `DefaultHash<string>`. -/
def getDestinationMachineFromUrl (NUM_MACHINES : Nat) (url : Bytes) : Nat :=
  (url_store.hash url).toNat % NUM_MACHINES

/-- Where a parser is in `pass_rpcs`. -/
inductive Phase where
  | idle
  /-- At the head of the loop. -/
  | passing (i : Nat)
  /-- With `locks[i]`, and what is left of `batch`. -/
  | adding (i : Nat) (batch : List Request)
  /-- After `flush(i)`, before `num_sent++`. -/
  | flushed (i : Nat) (batch : List Request)
  deriving DecidableEq

structure LocalUrlBuffer where
  urlUpdates : Nat → List Request
  phase : Phase

/-- A thread of `flush_async`, and what `send_batch_urlstore_update` gave it. -/
structure FlushAsync where
  machineId : Nat
  batch : List Request
  result : Option Bool
  deriving DecidableEq

/-- The batch that a parser moved to the outbound buffer of a machine. -/
structure Pass where
  localBuffer : Nat
  machineId : Nat
  batch : List Request
  deriving DecidableEq

structure System where
  buffers : Nat → List Request
  locks : Nat → Option Nat
  /-- A `size_t`. -/
  numSent : Nat
  locals : List LocalUrlBuffer
  /-- The batches that `batch_manage_frontier_and_update_url` got from here, in order. -/
  stored : List (List Request)
  sends : List FlushAsync
  /-- What each call of `add_urls` read. -/
  calls : List (Nat × List Request)
  passes : List Pass

def initial (parsers : Nat) : System :=
  ⟨fun _ => [], fun _ => none, 0, List.replicate parsers ⟨fun _ => [], .idle⟩, [], [], [], []⟩

def setLocal (t : Nat) (l : LocalUrlBuffer) (s : System) : System :=
  { s with locals := s.locals.set t l }

def setBuffer (machineId : Nat) (reqs : List Request) (s : System) : System :=
  { s with buffers := Function.update s.buffers machineId reqs }

def setLock (machineId : Nat) (holder : Option Nat) (s : System) : System :=
  { s with locks := Function.update s.locks machineId holder }

section Machines

variable (NUM_MACHINES ME : Nat)

/-- The requests of a list for a machine. -/
def partFor (i : Nat) (reqs : List Request) : List Request :=
  reqs.filter fun req => getDestinationMachineFromUrl NUM_MACHINES req.url = i

/-- `OutboundUrlBuffer::flush` of a batch that has left its buffer. -/
def flush (machineId : Nat) (batch : List Request) (s : System) : System :=
  if machineId = ME then { s with stored := s.stored ++ [batch] }
  else { s with sends := s.sends ++ [⟨machineId, batch, none⟩] }

/-- The condition of `OutboundUrlBuffer::add_url`. -/
def isFull (size numSent : Nat) : Bool :=
  CRAWLER_OUTBOUND_BATCH_SIZE ≤ size ||
    (CRAWLER_STARTUP_OUTBOUND_BATCH_SIZE ≤ size && numSent < 16 * 18)

/-- `add_urls` up to `pass_rpcs`. -/
def addUrlsStep (t : Nat) (urls : Bytes) (s : System) : Option System :=
  match s.locals[t]? with
  | none => none
  | some l =>
    if l.phase = .idle then
      some { setLocal t ⟨fun i => l.urlUpdates i ++ partFor NUM_MACHINES i (addUrls urls).1,
          .passing 0⟩ s with
        calls := s.calls ++ [(t, (addUrls urls).1)] }
    else none

/-- The next section of `pass_rpcs`. -/
def passStep (t : Nat) (s : System) : Option System :=
  match s.locals[t]? with
  | none => none
  | some l =>
    match l.phase with
    | .idle => none
    | .passing i =>
      if NUM_MACHINES ≤ i then some (setLocal t { l with phase := .idle } s)
      else if l.urlUpdates i = [] then some (setLocal t { l with phase := .passing (i + 1) } s)
      else if (s.locks i).isSome then none
      else
        some { setLock i (some t) (setLocal t
            ⟨Function.update l.urlUpdates i [], .adding i (l.urlUpdates i)⟩ s) with
          passes := s.passes ++ [⟨t, i, l.urlUpdates i⟩] }
    | .adding i [] => some (setLock i none (setLocal t { l with phase := .passing (i + 1) } s))
    | .adding i (req :: batch) =>
      if isFull (s.buffers i ++ [req]).length s.numSent then
        some (flush ME i (s.buffers i ++ [req])
          (setBuffer i [] (setLocal t { l with phase := .flushed i batch } s)))
      else
        some (setBuffer i (s.buffers i ++ [req])
          (setLocal t { l with phase := .adding i batch } s))
    | .flushed i batch =>
      some { setLocal t { l with phase := .adding i batch } s with
        numSent := (s.numSent + 1) % 2 ^ 64 }

/-- The end of a thread of `flush_async`. -/
def sentStep (j : Nat) (ok : Bool) (s : System) : Option System :=
  match s.sends[j]? with
  | none => none
  | some send =>
    if send.result = none then some { s with sends := s.sends.set j { send with result := some ok } }
    else none

inductive Turn where
  /-- `add_urls` of a `buffer_array<MAX_LINK_MEMORY>`. -/
  | addUrls (t : Nat) (urls : { urls : Bytes // urls.length ≤ MAX_LINK_MEMORY })
  | pass (t : Nat)
  | sent (j : Nat) (ok : Bool)

def step (turn : Turn) (s : System) : Option System :=
  match turn with
  | .addUrls t urls => addUrlsStep NUM_MACHINES t urls s
  | .pass t => passStep NUM_MACHINES ME t s
  | .sent j ok => sentStep j ok s

/-! ## What a turn can do -/

inductive Moves (s : System) : Turn → System → Prop where
  | addUrls {t : Nat} {l : LocalUrlBuffer}
      (urls : { urls : Bytes // urls.length ≤ MAX_LINK_MEMORY }) (hl : s.locals[t]? = some l)
      (hidle : l.phase = .idle) :
      Moves s (.addUrls t urls) { setLocal t ⟨fun i => l.urlUpdates i ++
          partFor NUM_MACHINES i (link_stream.addUrls urls).1, .passing 0⟩ s with
        calls := s.calls ++ [(t, (link_stream.addUrls urls).1)] }
  | finish {t i : Nat} {l : LocalUrlBuffer} (hl : s.locals[t]? = some l)
      (hphase : l.phase = .passing i) (hlast : NUM_MACHINES ≤ i) :
      Moves s (.pass t) (setLocal t { l with phase := .idle } s)
  | skip {t i : Nat} {l : LocalUrlBuffer} (hl : s.locals[t]? = some l)
      (hphase : l.phase = .passing i) (hlt : i < NUM_MACHINES) (hnil : l.urlUpdates i = []) :
      Moves s (.pass t) (setLocal t { l with phase := .passing (i + 1) } s)
  | lock {t i : Nat} {l : LocalUrlBuffer} (hl : s.locals[t]? = some l)
      (hphase : l.phase = .passing i) (hlt : i < NUM_MACHINES) (hne : l.urlUpdates i ≠ [])
      (hfree : s.locks i = none) :
      Moves s (.pass t) { setLock i (some t) (setLocal t
          ⟨Function.update l.urlUpdates i [], .adding i (l.urlUpdates i)⟩ s) with
        passes := s.passes ++ [⟨t, i, l.urlUpdates i⟩] }
  | unlock {t i : Nat} {l : LocalUrlBuffer} (hl : s.locals[t]? = some l)
      (hphase : l.phase = .adding i []) :
      Moves s (.pass t) (setLock i none (setLocal t { l with phase := .passing (i + 1) } s))
  | flush {t i : Nat} {l : LocalUrlBuffer} {req : Request} {batch : List Request}
      (hl : s.locals[t]? = some l) (hphase : l.phase = .adding i (req :: batch))
      (hfull : isFull (s.buffers i ++ [req]).length s.numSent = true) :
      Moves s (.pass t) (flush ME i (s.buffers i ++ [req])
        (setBuffer i [] (setLocal t { l with phase := .flushed i batch } s)))
  | push {t i : Nat} {l : LocalUrlBuffer} {req : Request} {batch : List Request}
      (hl : s.locals[t]? = some l) (hphase : l.phase = .adding i (req :: batch))
      (hroom : isFull (s.buffers i ++ [req]).length s.numSent = false) :
      Moves s (.pass t) (setBuffer i (s.buffers i ++ [req])
        (setLocal t { l with phase := .adding i batch } s))
  | count {t i : Nat} {l : LocalUrlBuffer} {batch : List Request} (hl : s.locals[t]? = some l)
      (hphase : l.phase = .flushed i batch) :
      Moves s (.pass t) { setLocal t { l with phase := .adding i batch } s with
        numSent := (s.numSent + 1) % 2 ^ 64 }
  | sent {j : Nat} {send : FlushAsync} (ok : Bool) (hsend : s.sends[j]? = some send)
      (hresult : send.result = none) :
      Moves s (.sent j ok) { s with sends := s.sends.set j { send with result := some ok } }

end Machines

section Turns

variable {NUM_MACHINES ME : Nat} {s s' : System} {turn : Turn}

theorem passStep_moves {t : Nat} (h : passStep NUM_MACHINES ME t s = some s') :
    Moves NUM_MACHINES ME s (.pass t) s' := by
  unfold passStep at h
  cases hl : s.locals[t]? with
  | none =>
    rw [hl] at h
    cases h
  | some l =>
    simp only [hl] at h
    cases hphase : l.phase with
    | idle =>
      simp only [hphase] at h
      cases h
    | passing i =>
      simp only [hphase] at h
      split_ifs at h with hlast hnil hfree <;> cases h
      · exact .finish hl hphase hlast
      · exact .skip hl hphase (Nat.lt_of_not_le hlast) hnil
      · exact .lock hl hphase (Nat.lt_of_not_le hlast) hnil (Option.not_isSome_iff_eq_none.mp hfree)
    | adding i batch =>
      cases batch with
      | nil =>
        simp only [hphase] at h
        cases h
        exact .unlock hl hphase
      | cons req batch =>
        simp only [hphase] at h
        split_ifs at h with hfull <;> cases h
        · exact .flush hl hphase hfull
        · exact .push hl hphase (Bool.eq_false_iff.mpr hfull)
    | flushed i batch =>
      simp only [hphase] at h
      cases h
      exact .count hl hphase

theorem step_moves (h : step NUM_MACHINES ME turn s = some s') :
    Moves NUM_MACHINES ME s turn s' := by
  cases turn with
  | addUrls t urls =>
    simp only [step, addUrlsStep] at h
    split at h
    · cases h
    · split_ifs at h with hidle
      cases h
      exact .addUrls urls ‹_› hidle
  | pass t => exact passStep_moves h
  | sent j ok =>
    simp only [step, sentStep] at h
    split at h
    · cases h
    · split_ifs at h with hresult
      cases h
      exact .sent ok ‹_› hresult

end Turns

/-! ## Who has a lock -/

/-- The machine whose lock a parser has, and what it has not pushed yet. -/
def Phase.held : Phase → Option (Nat × List Request)
  | .adding i batch | .flushed i batch => some (i, batch)
  | .idle | .passing _ => none

structure Locked (NUM_MACHINES : Nat) (s : System) : Prop where
  /-- A lock that is taken is in the hand of a parser. -/
  taken : ∀ i (t : Nat), s.locks i = some t →
    ∃ (l : LocalUrlBuffer) (batch : List Request),
      s.locals[t]? = some l ∧ l.phase.held = some (i, batch)
  lock : ∀ (t : Nat) (l : LocalUrlBuffer) i batch, s.locals[t]? = some l →
    l.phase.held = some (i, batch) → s.locks i = some t
  machine : ∀ (t : Nat) (l : LocalUrlBuffer) i batch, s.locals[t]? = some l →
    l.phase.held = some (i, batch) → i < NUM_MACHINES

/-- What the parser with the lock of a machine has not pushed yet. -/
def inHand (i : Nat) (s : System) : List Request :=
  ((((s.locks i).bind fun t => s.locals[t]?).bind fun l => l.phase.held).map Prod.snd).getD []

section Locks

variable {NUM_MACHINES ME : Nat} {s s' : System} {turn : Turn} {t i : Nat} {l : LocalUrlBuffer}

@[simp] theorem setLocal_locks (l : LocalUrlBuffer) : (setLocal t l s).locks = s.locks := rfl

@[simp] theorem setLocal_buffers (l : LocalUrlBuffer) : (setLocal t l s).buffers = s.buffers := rfl

@[simp] theorem flush_locks (batch : List Request) : (flush ME i batch s).locks = s.locks := by
  unfold flush
  split_ifs <;> rfl

@[simp] theorem flush_locals (batch : List Request) : (flush ME i batch s).locals = s.locals := by
  unfold flush
  split_ifs <;> rfl

@[simp] theorem flush_buffers (batch : List Request) :
    (flush ME i batch s).buffers = s.buffers := by
  unfold flush
  split_ifs <;> rfl

@[simp] theorem flush_numSent (batch : List Request) :
    (flush ME i batch s).numSent = s.numSent := by
  unfold flush
  split_ifs <;> rfl

@[simp] theorem flush_calls (batch : List Request) : (flush ME i batch s).calls = s.calls := by
  unfold flush
  split_ifs <;> rfl

@[simp] theorem flush_passes (batch : List Request) : (flush ME i batch s).passes = s.passes := by
  unfold flush
  split_ifs <;> rfl

theorem locals_setLocal (hl : s.locals[t]? = some l) (l' : LocalUrlBuffer) :
    (setLocal t l' s).locals[t]? = some l' :=
  List.getElem?_set_self (List.getElem?_eq_some_iff.mp hl).1

theorem locals_setLocal_of_ne {other : Nat} (l' : LocalUrlBuffer) (h : other ≠ t) :
    (setLocal t l' s).locals[other]? = s.locals[other]? := List.getElem?_set_ne (Ne.symm h)

/-- A parser without a lock has none. -/
theorem Locked.free (h : Locked NUM_MACHINES s) (hl : s.locals[t]? = some l)
    (hheld : l.phase.held = none) (i : Nat) : s.locks i ≠ some t := by
  intro hlock
  obtain ⟨l', batch, hl', hheld'⟩ := h.taken i t hlock
  cases hl.symm.trans hl'
  rw [hheld] at hheld'
  cases hheld'

/-- A parser has one lock at most. -/
theorem Locked.one (h : Locked NUM_MACHINES s) {batch : List Request} (hl : s.locals[t]? = some l)
    (hheld : l.phase.held = some (i, batch)) {j : Nat} (hlock : s.locks j = some t) : j = i := by
  obtain ⟨l', batch', hl', hheld'⟩ := h.taken j t hlock
  cases hl.symm.trans hl'
  rw [hheld] at hheld'
  cases hheld'
  rfl

/-- A parser goes on with the lock that it has, or without one. -/
theorem Locked.set (h : Locked NUM_MACHINES s) (hl : s.locals[t]? = some l) {l' : LocalUrlBuffer}
    (hsame : l'.phase.held.map Prod.fst = l.phase.held.map Prod.fst) :
    Locked NUM_MACHINES (setLocal t l' s) := by
  have hback {i : Nat} {batch : List Request} (hheld : l'.phase.held = some (i, batch)) :
      ∃ batch, l.phase.held = some (i, batch) := by
    rw [hheld] at hsame
    obtain ⟨⟨j, old⟩, hold, heq⟩ := Option.map_eq_some_iff.mp hsame.symm
    cases heq
    exact ⟨old, hold⟩
  refine ⟨fun i u hlock => ?_, fun u m i batch hm hheld => ?_, fun u m i batch hm hheld => ?_⟩
  · obtain ⟨m, batch, hm, hheld⟩ := h.taken i u hlock
    by_cases hu : u = t
    · subst hu
      cases hl.symm.trans hm
      rw [hheld] at hsame
      obtain ⟨⟨j, new⟩, hnew, heq⟩ := Option.map_eq_some_iff.mp hsame
      cases heq
      exact ⟨l', new, locals_setLocal hl l', hnew⟩
    · exact ⟨m, batch, (locals_setLocal_of_ne l' hu).trans hm, hheld⟩
  · rcases getElem?_set_cases hm with ⟨rfl, rfl⟩ | ⟨_, hold⟩
    · obtain ⟨old, hold⟩ := hback hheld
      exact h.lock u l i old hl hold
    · exact h.lock u m i batch hold hheld
  · rcases getElem?_set_cases hm with ⟨rfl, rfl⟩ | ⟨_, hold⟩
    · obtain ⟨old, hold⟩ := hback hheld
      exact h.machine u l i old hl hold
    · exact h.machine u m i batch hold hheld

theorem Locked.take (h : Locked NUM_MACHINES s) (hl : s.locals[t]? = some l)
    (hheld : l.phase.held = none) (hfree : s.locks i = none) (hlt : i < NUM_MACHINES)
    {l' : LocalUrlBuffer} {batch : List Request} (hheld' : l'.phase.held = some (i, batch)) :
    Locked NUM_MACHINES (setLock i (some t) (setLocal t l' s)) := by
  have hnone := h.free hl hheld
  refine ⟨fun j u hlock => ?_, fun u m j batch' hm hheldm => ?_, fun u m j batch' hm hheldm => ?_⟩
  · change Function.update s.locks i (some t) j = some u at hlock
    by_cases hj : j = i
    · subst hj
      rw [Function.update_self] at hlock
      cases hlock
      exact ⟨l', batch, locals_setLocal hl l', hheld'⟩
    · rw [Function.update_of_ne hj] at hlock
      obtain ⟨m, old, hm, hheldm⟩ := h.taken j u hlock
      have hu : u ≠ t := fun heq => hnone j (heq ▸ hlock)
      exact ⟨m, old, (locals_setLocal_of_ne l' hu).trans hm, hheldm⟩
  · change Function.update s.locks i (some t) j = some u
    rcases getElem?_set_cases hm with ⟨rfl, rfl⟩ | ⟨_, hold⟩
    · rw [hheld'] at hheldm
      cases hheldm
      exact Function.update_self ..
    · have hlock := h.lock u m j batch' hold hheldm
      have hj : j ≠ i := fun heq => by simp [heq, hfree] at hlock
      rwa [Function.update_of_ne hj]
  · rcases getElem?_set_cases hm with ⟨rfl, rfl⟩ | ⟨_, hold⟩
    · rw [hheld'] at hheldm
      cases hheldm
      exact hlt
    · exact h.machine u m j batch' hold hheldm

theorem Locked.release (h : Locked NUM_MACHINES s) {batch : List Request}
    (hl : s.locals[t]? = some l) (hheld : l.phase.held = some (i, batch)) {l' : LocalUrlBuffer}
    (hheld' : l'.phase.held = none) : Locked NUM_MACHINES (setLock i none (setLocal t l' s)) := by
  refine ⟨fun j u hlock => ?_, fun u m j batch' hm hheldm => ?_, fun u m j batch' hm hheldm => ?_⟩
  · change Function.update s.locks i none j = some u at hlock
    have hj : j ≠ i := fun heq => by simp [heq] at hlock
    rw [Function.update_of_ne hj] at hlock
    obtain ⟨m, old, hm, hheldm⟩ := h.taken j u hlock
    have hu : u ≠ t := fun heq => hj (h.one hl hheld (heq ▸ hlock))
    exact ⟨m, old, (locals_setLocal_of_ne l' hu).trans hm, hheldm⟩
  · change Function.update s.locks i none j = some u
    rcases getElem?_set_cases hm with ⟨rfl, rfl⟩ | ⟨hu, hold⟩
    · rw [hheld'] at hheldm
      cases hheldm
    · have hlock := h.lock u m j batch' hold hheldm
      have hlock' := h.lock t l i batch hl hheld
      have hj : j ≠ i := fun heq => hu (by simpa [heq, hlock'] using hlock.symm)
      rwa [Function.update_of_ne hj]
  · rcases getElem?_set_cases hm with ⟨rfl, rfl⟩ | ⟨_, hold⟩
    · rw [hheld'] at hheldm
      cases hheldm
    · exact h.machine u m j batch' hold hheldm

/-- The locks of a state with the same locks and parsers. -/
theorem Locked.congr (h : Locked NUM_MACHINES s) (hlocks : s'.locks = s.locks)
    (hlocals : s'.locals = s.locals) : Locked NUM_MACHINES s' := by
  obtain ⟨htaken, hlock, hmachine⟩ := h
  rw [← hlocks, ← hlocals] at htaken hlock
  rw [← hlocals] at hmachine
  exact ⟨htaken, hlock, hmachine⟩

theorem locked_initial (parsers : Nat) : Locked NUM_MACHINES (initial parsers) := by
  have hidle (t : Nat) (l : LocalUrlBuffer) (hl : (initial parsers).locals[t]? = some l) :
      l.phase.held = none := by
    rw [List.eq_of_mem_replicate (List.mem_of_getElem? hl)]
    rfl
  refine ⟨fun _ _ hlock => absurd hlock (Option.some_ne_none _).symm, fun t l i batch hl hheld => ?_,
    fun t l i batch hl hheld => ?_⟩ <;>
    simp [hidle t l hl] at hheld

theorem locked_step (h : Locked NUM_MACHINES s) (hstep : step NUM_MACHINES ME turn s = some s') :
    Locked NUM_MACHINES s' := by
  cases step_moves hstep with
  | addUrls urls hl hidle =>
    refine Locked.congr (h.set hl ?_) rfl rfl
    rw [hidle]
    rfl
  | finish hl hphase | skip hl hphase =>
    apply h.set hl
    rw [hphase]
    rfl
  | lock hl hphase hlt _ hfree =>
    exact (h.take hl (congrArg Phase.held hphase) hfree hlt rfl).congr rfl rfl
  | unlock hl hphase => exact h.release hl (congrArg Phase.held hphase) rfl
  | flush hl hphase =>
    refine Locked.congr (h.set hl ?_) (flush_locks _) (flush_locals _)
    rw [hphase]
    rfl
  | push hl hphase | count hl hphase =>
    refine Locked.congr (h.set hl ?_) rfl rfl
    rw [hphase]
    rfl
  | sent => exact h.congr rfl rfl

theorem inHand_of_free (h : s.locks i = none) : inHand i s = [] := by simp [inHand, h]

theorem inHand_of_held {batch : List Request} (hlock : s.locks i = some t)
    (hl : s.locals[t]? = some l) (hheld : l.phase.held = some (i, batch)) :
    inHand i s = batch := by simp [inHand, hlock, hl, hheld]

/-- What a lock has in its hand does not change with another parser. -/
theorem inHand_congr (hlocks : s'.locks i = s.locks i)
    (hlocals : ∀ t, s.locks i = some t → s'.locals[t]? = s.locals[t]?) :
    inHand i s' = inHand i s := by
  unfold inHand
  rw [hlocks]
  cases hlock : s.locks i with
  | none => rfl
  | some t => simp [hlocals t hlock]

end Locks

/-! ## Nothing is lost on the way out -/

/-- Who gets what, of the threads of `flush_async`. -/
def posted (sends : List FlushAsync) : List (Nat × List Request) :=
  sends.map fun send => (send.machineId, send.batch)

/-- The batches that left the buffer of a machine, in order. -/
def sentTo (ME i : Nat) (s : System) : List (List Request) :=
  if i = ME then s.stored else ((posted s.sends).filter (·.1 = i)).map Prod.snd

/-- What the parsers moved to a machine, in order. -/
def passedTo (i : Nat) (passes : List Pass) : List Request :=
  (passes.filter (·.machineId = i)).flatMap Pass.batch

/-- What was moved is sent, in the buffer, or in the hand of the parser with the lock. -/
def InOrder (ME : Nat) (s : System) : Prop :=
  ∀ i, (sentTo ME i s).flatten ++ (s.buffers i ++ inHand i s) = passedTo i s.passes

section Order

variable {NUM_MACHINES ME : Nat} {s s' : System} {turn : Turn} {t i j : Nat} {l : LocalUrlBuffer}

theorem sentTo_flush (batch : List Request) :
    sentTo ME i (flush ME j batch s) =
      if i = j then sentTo ME i s ++ [batch] else sentTo ME i s := by
  unfold sentTo flush posted
  by_cases hi : i = ME <;> by_cases hj : j = ME <;> by_cases hij : i = j <;>
    simp_all [eq_comm]

theorem posted_set {send : FlushAsync} (hsend : s.sends[j]? = some send) (result : Option Bool) :
    posted (s.sends.set j { send with result }) = posted s.sends := by
  obtain ⟨hj, rfl⟩ := List.getElem?_eq_some_iff.mp hsend
  have hmap : j < (s.sends.map fun send => (send.machineId, send.batch)).length := by simpa using hj
  have hsame := List.set_getElem_self hmap
  rw [List.getElem_map] at hsame
  unfold posted
  rw [List.map_set]
  exact hsame

theorem passedTo_concat (passes : List Pass) (p : Pass) :
    passedTo i (passes ++ [p]) = passedTo i passes ++ if i = p.machineId then p.batch else [] := by
  by_cases hi : i = p.machineId <;> simp [passedTo, hi, eq_comm]

theorem sentTo_sent {send : FlushAsync} (hsend : s.sends[j]? = some send) (result : Option Bool) :
    sentTo ME i { s with sends := s.sends.set j { send with result } } = sentTo ME i s := by
  unfold sentTo
  rw [posted_set hsend]

/-- A turn that changes nothing of a machine but its parsers keeps the order. -/
theorem InOrder.keep (h : InOrder ME s) (hsent : sentTo ME i s' = sentTo ME i s)
    (hbuffer : s'.buffers i = s.buffers i) (hhand : inHand i s' = inHand i s)
    (hpasses : s'.passes = s.passes) :
    (sentTo ME i s').flatten ++ (s'.buffers i ++ inHand i s') = passedTo i s'.passes := by
  rw [hsent, hbuffer, hhand, hpasses]
  exact h i

@[simp] theorem inHand_flush (batch : List Request) :
    inHand i (flush ME j batch s) = inHand i s := by simp [inHand]

@[simp] theorem inHand_setBuffer (reqs : List Request) :
    inHand i (setBuffer j reqs s) = inHand i s := rfl

theorem inHand_setLock_of_ne (holder : Option Nat) (h : i ≠ j) :
    inHand i (setLock j holder s) = inHand i s := by
  have hlock : (setLock j holder s).locks i = s.locks i := Function.update_of_ne h ..
  exact inHand_congr hlock fun _ _ => rfl

/-- The hands of the other parsers. -/
theorem inHand_setLocal_of_ne (hnone : s.locks i ≠ some t) (l' : LocalUrlBuffer) :
    inHand i (setLocal t l' s) = inHand i s := by
  have hlocks : (setLocal t l' s).locks i = s.locks i := rfl
  apply inHand_congr hlocks
  intro u hlock
  exact locals_setLocal_of_ne l' fun heq => hnone (heq ▸ hlock)

theorem inHand_setLocal (hlock : s.locks i = some t) (hl : s.locals[t]? = some l)
    {l' : LocalUrlBuffer} {batch : List Request} (hheld : l'.phase.held = some (i, batch)) :
    inHand i (setLocal t l' s) = batch := inHand_of_held hlock (locals_setLocal hl l') hheld

/-- What is moved to a machine is in the hand of the parser that locked it. -/
theorem InOrder.lock (h : InOrder ME s) (hlocked : Locked NUM_MACHINES s)
    (hl : s.locals[t]? = some l) (hphase : l.phase = .passing j) (hfree : s.locks j = none) :
    InOrder ME { setLock j (some t) (setLocal t
        ⟨Function.update l.urlUpdates j [], .adding j (l.urlUpdates j)⟩ s) with
      passes := s.passes ++ [⟨t, j, l.urlUpdates j⟩] } := by
  intro i
  have hnone := hlocked.free hl (by rw [hphase]; rfl) i
  change (sentTo ME i s).flatten ++ (s.buffers i ++ inHand i (setLock j (some t) (setLocal t
    ⟨Function.update l.urlUpdates j [], .adding j (l.urlUpdates j)⟩ s))) =
      passedTo i (s.passes ++ [⟨t, j, l.urlUpdates j⟩])
  rw [passedTo_concat]
  by_cases hij : i = j
  · subst hij
    have hhand : inHand i (setLock i (some t) (setLocal t
        ⟨Function.update l.urlUpdates i [], .adding i (l.urlUpdates i)⟩ s)) = l.urlUpdates i :=
      inHand_of_held (Function.update_self ..) (locals_setLocal hl _) rfl
    have hold := h i
    rw [inHand_of_free hfree, List.append_nil] at hold
    rw [hhand, ← List.append_assoc, hold, if_pos rfl]
  · rw [inHand_setLock_of_ne _ hij, inHand_setLocal_of_ne hnone, h i, if_neg hij, List.append_nil]

theorem inOrder_step (h : InOrder ME s) (hlocked : Locked NUM_MACHINES s)
    (hstep : step NUM_MACHINES ME turn s = some s') : InOrder ME s' := by
  intro i
  cases step_moves hstep with
  | @addUrls t l urls hl hidle =>
    have hnone := hlocked.free hl (by rw [hidle]; rfl) i
    exact h.keep rfl rfl (inHand_setLocal_of_ne hnone _) rfl
  | @finish t j l hl hphase | @skip t j l hl hphase =>
    have hnone := hlocked.free hl (by rw [hphase]; rfl) i
    exact h.keep rfl rfl (inHand_setLocal_of_ne hnone _) rfl
  | lock hl hphase _ _ hfree => exact h.lock hlocked hl hphase hfree i
  | @unlock t j l hl hphase =>
    have hheld : l.phase.held = some (j, []) := by rw [hphase]; rfl
    refine h.keep rfl rfl ?_ rfl
    by_cases hij : i = j
    · subst hij
      rw [inHand_of_held (hlocked.lock t l i [] hl hheld) hl hheld]
      exact inHand_of_free (Function.update_self ..)
    · have hnone : s.locks i ≠ some t := fun hlock => hij (hlocked.one hl hheld hlock)
      rw [inHand_setLock_of_ne _ hij, inHand_setLocal_of_ne hnone]
  | @flush t j l req batch hl hphase =>
    have hheld : l.phase.held = some (j, req :: batch) := by rw [hphase]; rfl
    have hlock := hlocked.lock t l j _ hl hheld
    rw [sentTo_flush, inHand_flush, inHand_setBuffer, flush_buffers]
    by_cases hij : i = j
    · subst hij
      have hold := h i
      rw [inHand_of_held hlock hl hheld] at hold
      rw [if_pos rfl, inHand_setLocal hlock hl rfl]
      simpa [passedTo, sentTo, setBuffer, setLocal] using hold
    · have hnone : s.locks i ≠ some t := fun hlock => hij (hlocked.one hl hheld hlock)
      rw [if_neg hij, inHand_setLocal_of_ne hnone]
      simpa [passedTo, sentTo, setBuffer, setLocal, hij] using h i
  | @push t j l req batch hl hphase =>
    have hheld : l.phase.held = some (j, req :: batch) := by rw [hphase]; rfl
    have hlock := hlocked.lock t l j _ hl hheld
    rw [inHand_setBuffer]
    by_cases hij : i = j
    · subst hij
      have hold := h i
      rw [inHand_of_held hlock hl hheld] at hold
      rw [inHand_setLocal hlock hl rfl]
      simpa [passedTo, sentTo, setBuffer, setLocal] using hold
    · have hnone : s.locks i ≠ some t := fun hlock => hij (hlocked.one hl hheld hlock)
      rw [inHand_setLocal_of_ne hnone]
      simpa [passedTo, sentTo, setBuffer, setLocal, hij] using h i
  | @count t j l batch hl hphase =>
    have hheld : l.phase.held = some (j, batch) := by rw [hphase]; rfl
    have hlock := hlocked.lock t l j _ hl hheld
    refine h.keep rfl rfl ?_ rfl
    by_cases hij : i = j
    · subst hij
      rw [inHand_of_held hlock hl hheld]
      exact inHand_setLocal hlock hl rfl
    · exact inHand_setLocal_of_ne (fun hlock => hij (hlocked.one hl hheld hlock)) _
  | sent ok hsend =>
    exact h.keep (sentTo_sent hsend (some ok)) rfl rfl rfl

end Order

/-! ## A parser passes on what it read -/

/-- `if (url_updates[i].empty()) continue`. -/
def unlessEmpty (reqs : List Request) : List (List Request) := if reqs = [] then [] else [reqs]

/-- The parts of the calls of a parser for a machine, but the empty ones. -/
def partsFor (NUM_MACHINES t i : Nat) (calls : List (Nat × List Request)) : List (List Request) :=
  (calls.filter (·.1 = t)).flatMap fun call => unlessEmpty (partFor NUM_MACHINES i call.2)

/-- The batches that a parser moved to a machine. -/
def passesOf (t i : Nat) (passes : List Pass) : List (List Request) :=
  (passes.filter fun p => p.localBuffer = t ∧ p.machineId = i).map Pass.batch

/-- The loop of `pass_rpcs` is done with a machine. -/
def Phase.Past (i : Nat) : Phase → Prop
  | .idle => True
  | .passing j => i < j
  | .adding j _ | .flushed j _ => i ≤ j

/-- Between the calls nothing is left, and in a call what the loop is not done with. -/
structure Parted (NUM_MACHINES : Nat) (s : System) : Prop where
  parts : ∀ (t : Nat) (l : LocalUrlBuffer) (i : Nat), s.locals[t]? = some l → i < NUM_MACHINES →
    passesOf t i s.passes ++ unlessEmpty (l.urlUpdates i) = partsFor NUM_MACHINES t i s.calls
  past : ∀ (t : Nat) (l : LocalUrlBuffer) (i : Nat), s.locals[t]? = some l → i < NUM_MACHINES →
    l.phase.Past i → l.urlUpdates i = []

section Parting

variable {NUM_MACHINES ME : Nat} {s s' : System} {turn : Turn} {t i : Nat} {l : LocalUrlBuffer}

theorem partsFor_concat (calls : List (Nat × List Request)) (u : Nat) (reqs : List Request) :
    partsFor NUM_MACHINES t i (calls ++ [(u, reqs)]) = partsFor NUM_MACHINES t i calls ++
      if t = u then unlessEmpty (partFor NUM_MACHINES i reqs) else [] := by
  by_cases hu : t = u <;> simp [partsFor, hu, eq_comm]

theorem passesOf_concat (passes : List Pass) (p : Pass) :
    passesOf t i (passes ++ [p]) =
      passesOf t i passes ++ if t = p.localBuffer ∧ i = p.machineId then [p.batch] else [] := by
  by_cases hp : t = p.localBuffer ∧ i = p.machineId
  · simp [passesOf, hp]
  · have hne : ¬(p.localBuffer = t ∧ p.machineId = i) := fun h => hp ⟨h.1.symm, h.2.symm⟩
    simp [passesOf, hp, hne]

/-- A parser that goes on and has the same updates. -/
theorem Parted.set (h : Parted NUM_MACHINES s) (hl : s.locals[t]? = some l) {phase : Phase}
    (hpast : ∀ i < NUM_MACHINES, phase.Past i → l.phase.Past i ∨ l.urlUpdates i = []) :
    Parted NUM_MACHINES (setLocal t { l with phase } s) := by
  refine ⟨fun u m i hm hlt => ?_, fun u m i hm hlt hdone => ?_⟩
  · rcases getElem?_set_cases hm with ⟨rfl, rfl⟩ | ⟨_, hold⟩
    · exact h.parts u l i hl hlt
    · exact h.parts u m i hold hlt
  · rcases getElem?_set_cases hm with ⟨rfl, rfl⟩ | ⟨_, hold⟩
    · rcases hpast i hlt hdone with hdone | hnil
      · exact h.past u l i hl hlt hdone
      · exact hnil
    · exact h.past u m i hold hlt hdone

theorem Parted.congr (h : Parted NUM_MACHINES s) (hlocals : s'.locals = s.locals)
    (hcalls : s'.calls = s.calls) (hpasses : s'.passes = s.passes) : Parted NUM_MACHINES s' := by
  obtain ⟨hparts, hpast⟩ := h
  rw [← hlocals] at hparts hpast
  rw [← hcalls, ← hpasses] at hparts
  exact ⟨hparts, hpast⟩

theorem parted_initial (parsers : Nat) : Parted NUM_MACHINES (initial parsers) := by
  have hfresh (t : Nat) (l : LocalUrlBuffer) (hl : (initial parsers).locals[t]? = some l) :
      l = ⟨fun _ => [], .idle⟩ := List.eq_of_mem_replicate (List.mem_of_getElem? hl)
  refine ⟨fun t l i hl _ => ?_, fun t l i hl _ _ => ?_⟩
  · rw [hfresh t l hl]
    rfl
  · rw [hfresh t l hl]

/-- A call brings its parts to what the parser has left for the machines: nothing. -/
theorem Parted.addUrls (h : Parted NUM_MACHINES s) (hl : s.locals[t]? = some l)
    (hidle : l.phase = .idle) (urls : Bytes) :
    Parted NUM_MACHINES { setLocal t ⟨fun i => l.urlUpdates i ++
        partFor NUM_MACHINES i (link_stream.addUrls urls).1, .passing 0⟩ s with
      calls := s.calls ++ [(t, (link_stream.addUrls urls).1)] } := by
  refine ⟨fun u m i hm hlt => ?_, fun u m i hm hlt hdone => ?_⟩
  · refine Eq.trans ?_ (partsFor_concat s.calls t (link_stream.addUrls urls).1).symm
    rcases getElem?_set_cases hm with ⟨rfl, rfl⟩ | ⟨hne, hold⟩
    · have hnil : l.urlUpdates i = [] := h.past u l i hl hlt (by rw [hidle]; trivial)
      have hparts := h.parts u l i hl hlt
      rw [hnil] at hparts
      change passesOf u i s.passes ++ unlessEmpty (l.urlUpdates i ++ _) = _
      rw [if_pos rfl, ← hparts, hnil]
      simp [unlessEmpty]
    · rw [if_neg hne, List.append_nil]
      exact h.parts u m i hold hlt
  · rcases getElem?_set_cases hm with ⟨rfl, rfl⟩ | ⟨_, hold⟩
    · exact absurd hdone (Nat.not_lt_zero i)
    · exact h.past u m i hold hlt hdone

/-- The part for a machine is moved as a whole. -/
theorem Parted.lock {j : Nat} (h : Parted NUM_MACHINES s) (hl : s.locals[t]? = some l)
    (hphase : l.phase = .passing j) (hne : l.urlUpdates j ≠ []) :
    Parted NUM_MACHINES { setLock j (some t) (setLocal t
        ⟨Function.update l.urlUpdates j [], .adding j (l.urlUpdates j)⟩ s) with
      passes := s.passes ++ [⟨t, j, l.urlUpdates j⟩] } := by
  refine ⟨fun u m i hm hlt => ?_, fun u m i hm hlt hdone => ?_⟩
  · change passesOf u i (s.passes ++ [⟨t, j, l.urlUpdates j⟩]) ++ unlessEmpty (m.urlUpdates i) =
      partsFor NUM_MACHINES u i s.calls
    rw [passesOf_concat]
    rcases getElem?_set_cases hm with ⟨rfl, rfl⟩ | ⟨hother, hold⟩
    · have hparts := h.parts u l i hl hlt
      by_cases hij : i = j
      · subst hij
        refine Eq.trans ?_ hparts
        simp [unlessEmpty, hne]
      · simpa [hij] using hparts
    · have hnot : ¬(u = t ∧ i = j) := fun heq => hother heq.1
      simpa [hnot] using h.parts u m i hold hlt
  · rcases getElem?_set_cases hm with ⟨rfl, rfl⟩ | ⟨_, hold⟩
    · by_cases hij : i = j
      · subst hij
        exact Function.update_self ..
      · refine (Function.update_of_ne hij ..).trans (h.past u l i hl hlt ?_)
        rw [hphase]
        exact Nat.lt_of_le_of_ne hdone hij
    · exact h.past u m i hold hlt hdone

theorem parted_step (h : Parted NUM_MACHINES s) (hstep : step NUM_MACHINES ME turn s = some s') :
    Parted NUM_MACHINES s' := by
  cases step_moves hstep with
  | addUrls urls hl hidle => exact h.addUrls hl hidle urls
  | @finish t j l hl hphase hlast =>
    apply h.set hl
    intro i hlt _
    rw [hphase]
    exact .inl (Nat.lt_of_lt_of_le hlt hlast)
  | @skip t j l hl hphase _ hnil =>
    apply h.set hl
    intro i _ hdone
    rw [hphase]
    rcases Nat.lt_succ_iff_lt_or_eq.mp hdone with hlt | rfl
    · exact .inl hlt
    · exact .inr hnil
  | lock hl hphase _ hne _ => exact h.lock hl hphase hne
  | @unlock t j l hl hphase =>
    have hset : Parted NUM_MACHINES (setLocal t { l with phase := .passing (j + 1) } s) := by
      apply h.set hl
      intro i _ hdone
      rw [hphase]
      exact .inl (Nat.le_of_lt_succ hdone)
    exact hset.congr rfl rfl rfl
  | @flush t j l req batch hl hphase =>
    have hset : Parted NUM_MACHINES (setLocal t { l with phase := .flushed j batch } s) := by
      apply h.set hl
      intro i _ hdone
      rw [hphase]
      exact .inl hdone
    exact hset.congr (flush_locals _) (flush_calls _) (flush_passes _)
  | @push t j l req batch hl hphase | @count t j l batch hl hphase =>
    have hset : Parted NUM_MACHINES (setLocal t { l with phase := .adding j batch } s) := by
      apply h.set hl
      intro i _ hdone
      rw [hphase]
      exact .inl hdone
    exact hset.congr rfl rfl rfl
  | sent => exact h.congr rfl rfl rfl

end Parting

end seamus.url_buffers
