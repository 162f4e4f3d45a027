-- The execution tree of a query on a chunk: streams of words and of phrases at the leaves, ANDs
-- and ORs above them. The docs that the calls of `next_doc` on a new tree give increase.
import Seamus.PhraseQuery
import Seamus.Expressions

open cursor seamus.index seamus.isr seamus.loaded_index seamus.post_streams seamus.phrase_query
  seamus.expressions

namespace seamus.query_isr

/-! ## The source functions -/

inductive QueryISR where
  | term (isNegated : Bool) (isr : IndexStreamReader)
  | phrase (isr : PhraseISR)
  /-- The driver by its place among the children. -/
  | and (children : List QueryISR) (driver : Option Nat)
  | or (children : List QueryISR) (currentDocs : List Nat) (pendingAdvance : Nat)

def UINT32_MAX : Nat := 2 ^ 32 - 1

mutual

def isDriveable : QueryISR → Bool
  | .term isNegated _ => !isNegated
  | .phrase isr => !isr.isNegated
  | .and children _ => anyDriveable children
  | .or children _ _ => children.length ≠ 0 && allDriveable children

def anyDriveable : List QueryISR → Bool
  | [] => false
  | c :: cs => isDriveable c || anyDriveable cs

def allDriveable : List QueryISR → Bool
  | [] => true
  | c :: cs => isDriveable c && allDriveable cs

end

mutual

def estimatedNDocs : QueryISR → Nat
  | .term _ isr => isr.nDocs
  | .phrase isr => (isr.streams.map IndexStreamReader.nDocs).min?.getD 0
  | .and children _ => (rarestChild children).getD 0
  | .or children _ _ => sumNDocs 0 children

/-- The least estimate of the driveable children. -/
def rarestChild : List QueryISR → Option Nat
  | [] => none
  | c :: cs =>
    match isDriveable c, rarestChild cs with
    | false, best => best
    | true, none => some (estimatedNDocs c)
    | true, some best => some (min (estimatedNDocs c) best)

/-- The sum of the estimates, up to `UINT32_MAX`. -/
def sumNDocs (sum : Nat) : List QueryISR → Nat
  | [] => sum
  | c :: cs =>
    let sum := sum + estimatedNDocs c
    if sum ≥ UINT32_MAX then UINT32_MAX else sumNDocs sum cs

end

/-- What `AndOp::add_child` does to the driver and its score. -/
def pickDriver (best : Option Nat × Nat) (child : QueryISR × Nat) : Option Nat × Nat :=
  let s := estimatedNDocs child.1
  if isDriveable child.1 ∧ (best.1 = none ∨ s < best.2) then (some child.2, s) else best

def driverOf (children : List QueryISR) : Option Nat :=
  (children.zipIdx.foldl pickDriver (none, UINT32_MAX)).1

mutual

def probe (doc : Nat) : QueryISR → Option (Bool × QueryISR)
  | .term isNegated isr =>
    let (p, isr) := advanceTo doc isr
    some (if isNegated then p.doc ≠ doc else p.doc = doc, .term isNegated isr)
  | .phrase isr => (isr.probe doc).map fun (found, isr) => (found, .phrase isr)
  | .and children driver =>
    (probeAll doc children).map fun (ok, children) => (ok, .and children driver)
  | .or children docs pending =>
    (probeAny doc children).map fun (ok, children) => (ok, .or children docs pending)

/-- The loop of `AndOp::probe`: children after the first that fails are not probed. -/
def probeAll (doc : Nat) : List QueryISR → Option (Bool × List QueryISR)
  | [] => some (true, [])
  | c :: cs =>
    match probe doc c with
    | none => none
    | some (false, c) => some (false, c :: cs)
    | some (true, c) => (probeAll doc cs).map fun (ok, cs) => (ok, c :: cs)

/-- The loop of `OrOp::probe`: children after the first that has the doc are not probed. -/
def probeAny (doc : Nat) : List QueryISR → Option (Bool × List QueryISR)
  | [] => some (false, [])
  | c :: cs =>
    match probe doc c with
    | none => none
    | some (true, c) => some (true, c :: cs)
    | some (false, c) => (probeAny doc cs).map fun (ok, cs) => (ok, c :: cs)

end

/-- The loop of `AndOp::next_doc` over the children but the driver. -/
def probeOthers (doc : Nat) : Nat → List QueryISR → Option (Bool × List QueryISR)
  | _, [] => some (true, [])
  | 0, driver :: cs => (probeAll doc cs).map fun (ok, cs) => (ok, driver :: cs)
  | i + 1, c :: cs =>
    match probe doc c with
    | none => none
    | some (false, c) => some (false, c :: cs)
    | some (true, c) => (probeOthers doc i cs).map fun (ok, cs) => (ok, c :: cs)

section NextDoc

variable (next : QueryISR → Option (Nat × QueryISR))

/-- The candidates of the driver, until all other children have one. -/
def andLoop (i : Nat) : Nat → List QueryISR → Option (Nat × List QueryISR)
  | 0, _ => none
  | turns + 1, children =>
    match children[i]?.bind next with
    | none => none
    | some (candidate, driver) =>
      let children := children.set i driver
      if candidate = 0 then some (0, children)
      else
        match probeOthers candidate i children with
        | none => none
        | some (true, children) => some (candidate, children)
        | some (false, children) => andLoop i turns children

/-- The children of an OR that stand in the doc that was given last go on. -/
def advanceAt (pending : Nat) : List QueryISR → List Nat → Option (List QueryISR × List Nat)
  | c :: cs, d :: ds =>
    match (if d = pending then next c else some (d, c)), advanceAt pending cs ds with
    | some (d, c), some (cs, ds) => some (c :: cs, d :: ds)
    | _, _ => none
  | cs, ds => some (cs, ds)

/-- The first docs of the children of an OR, as `OrOp::add_child` asks for them. -/
def primeAll : List QueryISR → Option (List QueryISR × List Nat)
  | [] => some ([], [])
  | c :: cs =>
    match next c, primeAll cs with
    | some (d, c), some (cs, ds) => some (c :: cs, d :: ds)
    | _, _ => none

end NextDoc

def lesserDoc (minDoc d : Nat) : Nat :=
  if d = 0 then minDoc else if minDoc = 0 ∨ d < minDoc then d else minDoc

/-- The least of the docs that are not 0, and 0 if there is none. -/
def minDoc (docs : List Nat) : Nat := docs.foldl lesserDoc 0

/-- `next_doc`: none when the tree has more levels than the first argument. A driver gives
another doc of the chunk in every turn of an AND but the last. -/
def nextDoc : Nat → QueryISR → Option (Nat × QueryISR)
  | 0, _ => none
  | _ + 1, .term isNegated isr =>
    let (p, isr) := advanceToNextDoc isr
    some (p.doc, .term isNegated isr)
  | _ + 1, .phrase isr => isr.nextDoc.map fun (doc, isr) => (doc, .phrase isr)
  | _ + 1, .and children none => some (0, .and children none)
  | levels + 1, .and children (some i) =>
    (andLoop (nextDoc levels) i (DOCS_PER_INDEX_CHUNK + 1) children).map fun (doc, children) =>
      (doc, .and children (some i))
  | levels + 1, .or children docs pending =>
    (if pending ≠ 0 then advanceAt (nextDoc levels) pending children docs
      else some (children, docs)).map fun (children, docs) =>
        (minDoc docs, .or children docs (minDoc docs))

mutual

def depth : ASTNode → Nat
  | .term _ => 1
  | .and children => depthAll children + 1
  | .or children => depthAll children + 1

def depthAll : List ASTNode → Nat
  | [] => 0
  | c :: cs => max (depth c) (depthAll cs)

end

mutual

def buildIsrTree (index : LoadedIndex) : ASTNode → Option QueryISR
  | .term t =>
    if t.isPhrase then some (.phrase (PhraseISR.new t.val t.isNegated index))
    else some (.term t.isNegated (open' t.val index))
  | .and children =>
    (buildAll index children).map fun children => .and children (driverOf children)
  | .or children =>
    ((buildAll index children).bind (primeAll (nextDoc (depthAll children)))).map
      fun (children, docs) => .or children docs 0

def buildAll (index : LoadedIndex) : List ASTNode → Option (List QueryISR)
  | [] => some []
  | c :: cs =>
    match buildIsrTree index c, buildAll index cs with
    | some c, some cs => some (c :: cs)
    | _, _ => none

end

/-! ## Which trees are driveable -/

mutual

/-- What `is_driveable` says of the tree of a query. -/
def driveable : ASTNode → Bool
  | .term t => !t.isNegated
  | .and asts => someDriveable asts
  | .or asts => asts.length ≠ 0 && eachDriveable asts

def someDriveable : List ASTNode → Bool
  | [] => false
  | ast :: asts => driveable ast || someDriveable asts

def eachDriveable : List ASTNode → Bool
  | [] => true
  | ast :: asts => driveable ast && eachDriveable asts

end

theorem driveable_of_each {asts : List ASTNode} {ast : ASTNode} (h : eachDriveable asts = true)
    (hmem : ast ∈ asts) : driveable ast = true := by
  induction asts with
  | nil => cases hmem
  | cons ast' asts ih =>
    rw [eachDriveable, Bool.and_eq_true] at h
    rcases List.mem_cons.mp hmem with rfl | hmem
    · exact h.1
    · exact ih h.2 hmem

theorem anyDriveable_map (ts : List QueryISR) : anyDriveable ts = (ts.map isDriveable).any id := by
  induction ts with
  | nil => rfl
  | cons t ts ih => rw [anyDriveable, ih, List.map_cons, List.any_cons, id]

theorem allDriveable_map (ts : List QueryISR) : allDriveable ts = (ts.map isDriveable).all id := by
  induction ts with
  | nil => rfl
  | cons t ts ih => rw [allDriveable, ih, List.map_cons, List.all_cons, id]

theorem someDriveable_map (asts : List ASTNode) :
    someDriveable asts = (asts.map driveable).any id := by
  induction asts with
  | nil => rfl
  | cons ast asts ih => rw [someDriveable, ih, List.map_cons, List.any_cons, id]

theorem eachDriveable_map (asts : List ASTNode) :
    eachDriveable asts = (asts.map driveable).all id := by
  induction asts with
  | nil => rfl
  | cons ast asts ih => rw [eachDriveable, ih, List.map_cons, List.all_cons, id]

/-- `is_driveable` of an AND and of an OR reads no more than that of the children. -/
theorem isDriveable_and {children children' : List QueryISR} {driver driver' : Option Nat}
    (h : children'.map isDriveable = children.map isDriveable) :
    isDriveable (.and children' driver') = isDriveable (.and children driver) := by
  rw [isDriveable, isDriveable, anyDriveable_map, anyDriveable_map, h]

theorem isDriveable_or {children children' : List QueryISR} {docs docs' : List Nat}
    {pending pending' : Nat} (h : children'.map isDriveable = children.map isDriveable) :
    isDriveable (.or children' docs' pending') = isDriveable (.or children docs pending) := by
  have hlength : children'.length = children.length := by
    rw [← List.length_map, h, List.length_map]
  rw [isDriveable, isDriveable, allDriveable_map, allDriveable_map, h, hlength]

theorem phrase_probe_isNegated {doc : Nat} {found : Bool} {isr isr' : PhraseISR}
    (h : isr.probe doc = some (found, isr')) : isr'.isNegated = isr.isNegated := by
  rw [PhraseISR.probe] at h
  split at h
  · cases h
    rfl
  · simp only at h
    split_ifs at h
    · cases h
      rfl
    · cases h
      rfl
    · obtain ⟨streams, _, heq⟩ := Option.map_eq_some_iff.mp h
      cases heq
      rfl

theorem phrase_nextDoc_isNegated {doc : Nat} {isr isr' : PhraseISR}
    (h : isr.nextDoc = some (doc, isr')) : isr'.isNegated = isr.isNegated := by
  rw [PhraseISR.nextDoc] at h
  split at h
  · cases h
    rfl
  · obtain ⟨streams, _, heq⟩ := Option.map_eq_some_iff.mp h
    cases heq
    rfl

mutual

/-- A probe moves the streams of a tree only. -/
theorem probe_isDriveable (doc : Nat) : ∀ t found t', probe doc t = some (found, t') →
    isDriveable t' = isDriveable t
  | .term isNegated isr, found, t', h => by
    cases h
    rfl
  | .phrase isr, found, t', h => by
    obtain ⟨⟨found', isr'⟩, hprobe, heq⟩ := Option.map_eq_some_iff.mp h
    cases heq
    rw [isDriveable, isDriveable, phrase_probe_isNegated hprobe]
  | .and children driver, found, t', h => by
    obtain ⟨⟨ok, children'⟩, hprobe, heq⟩ := Option.map_eq_some_iff.mp h
    cases heq
    exact isDriveable_and (probeAll_isDriveable doc children _ children' hprobe)
  | .or children docs pending, found, t', h => by
    obtain ⟨⟨ok, children'⟩, hprobe, heq⟩ := Option.map_eq_some_iff.mp h
    cases heq
    exact isDriveable_or (probeAny_isDriveable doc children _ children' hprobe)

theorem probeAll_isDriveable (doc : Nat) : ∀ ts ok ts', probeAll doc ts = some (ok, ts') →
    ts'.map isDriveable = ts.map isDriveable
  | [], ok, ts', h => by
    cases h
    rfl
  | t :: ts, ok, ts', h => by
    rw [probeAll] at h
    cases hprobe : probe doc t with
    | none =>
      rw [hprobe] at h
      cases h
    | some r =>
      obtain ⟨found, t'⟩ := r
      rw [hprobe] at h
      have hhead := probe_isDriveable doc t found t' hprobe
      cases found with
      | false =>
        cases h
        rw [List.map_cons, List.map_cons, hhead]
      | true =>
        obtain ⟨⟨ok', ts''⟩, hrest, heq⟩ := Option.map_eq_some_iff.mp h
        cases heq
        rw [List.map_cons, List.map_cons, hhead, probeAll_isDriveable doc ts _ ts'' hrest]

theorem probeAny_isDriveable (doc : Nat) : ∀ ts ok ts', probeAny doc ts = some (ok, ts') →
    ts'.map isDriveable = ts.map isDriveable
  | [], ok, ts', h => by
    cases h
    rfl
  | t :: ts, ok, ts', h => by
    rw [probeAny] at h
    cases hprobe : probe doc t with
    | none =>
      rw [hprobe] at h
      cases h
    | some r =>
      obtain ⟨found, t'⟩ := r
      rw [hprobe] at h
      have hhead := probe_isDriveable doc t found t' hprobe
      cases found with
      | true =>
        cases h
        rw [List.map_cons, List.map_cons, hhead]
      | false =>
        obtain ⟨⟨ok', ts''⟩, hrest, heq⟩ := Option.map_eq_some_iff.mp h
        cases heq
        rw [List.map_cons, List.map_cons, hhead, probeAny_isDriveable doc ts _ ts'' hrest]

end

theorem probeOthers_isDriveable (doc i : Nat) {ts ts' : List QueryISR} {ok : Bool}
    (h : probeOthers doc i ts = some (ok, ts')) : ts'.map isDriveable = ts.map isDriveable := by
  induction ts generalizing i ok ts' with
  | nil =>
    cases i <;> cases h <;> rfl
  | cons t ts ih =>
    cases i with
    | zero =>
      obtain ⟨⟨ok', ts''⟩, hrest, heq⟩ := Option.map_eq_some_iff.mp h
      cases heq
      rw [List.map_cons, List.map_cons, probeAll_isDriveable doc ts _ ts'' hrest]
    | succ i =>
      rw [probeOthers] at h
      cases hprobe : probe doc t with
      | none =>
        rw [hprobe] at h
        cases h
      | some r =>
        obtain ⟨found, t'⟩ := r
        rw [hprobe] at h
        have hhead := probe_isDriveable doc t found t' hprobe
        cases found with
        | false =>
          cases h
          rw [List.map_cons, List.map_cons, hhead]
        | true =>
          obtain ⟨⟨ok', ts''⟩, hrest, heq⟩ := Option.map_eq_some_iff.mp h
          cases heq
          rw [List.map_cons, List.map_cons, hhead, ih i hrest]

section Next

variable {next : QueryISR → Option (Nat × QueryISR)}
  (hnext : ∀ t doc t', next t = some (doc, t') → isDriveable t' = isDriveable t)

include hnext

theorem andLoop_isDriveable (i : Nat) {turns doc : Nat} {ts ts' : List QueryISR}
    (h : andLoop next i turns ts = some (doc, ts')) :
    ts'.map isDriveable = ts.map isDriveable := by
  induction turns generalizing ts with
  | zero => cases h
  | succ turns ih =>
    rw [andLoop] at h
    split at h
    · cases h
    · rename_i candidate driver hrun
      obtain ⟨old, hold, hrun⟩ := Option.bind_eq_some_iff.mp hrun
      have hset : (ts.set i driver).map isDriveable = ts.map isDriveable := by
        rw [List.map_set, hnext _ _ _ hrun]
        apply List.ext_getElem?
        intro j
        by_cases hj : i = j
        · subst hj
          rw [List.getElem?_set_self (by simpa using (List.getElem?_eq_some_iff.mp hold).1),
            List.getElem?_map, hold, Option.map_some]
        · rw [List.getElem?_set_ne hj]
      simp only at h
      split_ifs at h
      · cases h
        exact hset
      · split at h
        · cases h
        · rename_i ts'' hprobe
          cases h
          exact (probeOthers_isDriveable _ i hprobe).trans hset
        · rename_i ts'' hprobe
          exact (ih h).trans ((probeOthers_isDriveable _ i hprobe).trans hset)

theorem advanceAt_isDriveable {pending : Nat} {ts ts' : List QueryISR} {docs docs' : List Nat}
    (h : advanceAt next pending ts docs = some (ts', docs')) :
    ts'.map isDriveable = ts.map isDriveable := by
  induction ts generalizing docs ts' docs' with
  | nil =>
    rw [advanceAt] at h
    · cases h
      rfl
    · intro _ _ _ _ hts
      cases hts
  | cons t ts ih =>
    cases docs with
    | nil =>
      rw [advanceAt] at h
      · cases h
        rfl
      · intro _ _ _ _ _ hdocs
        cases hdocs
    | cons d docs =>
      rw [advanceAt] at h
      split at h
      · rename_i d' t' ts'' docs'' hrun hrest
        cases h
        have hhead : isDriveable t' = isDriveable t := by
          split_ifs at hrun
          · exact hnext _ _ _ hrun
          · cases hrun
            rfl
        rw [List.map_cons, List.map_cons, hhead, ih hrest]
      · cases h

theorem primeAll_isDriveable {ts ts' : List QueryISR} {docs : List Nat}
    (h : primeAll next ts = some (ts', docs)) : ts'.map isDriveable = ts.map isDriveable := by
  induction ts generalizing ts' docs with
  | nil =>
    cases h
    rfl
  | cons t ts ih =>
    rw [primeAll] at h
    split at h
    · rename_i doc t' ts'' docs'' hrun hrest
      cases h
      rw [List.map_cons, List.map_cons, hnext _ _ _ hrun, ih hrest]
    · cases h

end Next

theorem nextDoc_isDriveable {levels doc : Nat} {t t' : QueryISR}
    (h : nextDoc levels t = some (doc, t')) : isDriveable t' = isDriveable t := by
  induction levels generalizing t doc t' with
  | zero => cases h
  | succ levels ih =>
    cases t with
    | term isNegated isr =>
      cases h
      rfl
    | phrase isr =>
      obtain ⟨⟨doc', isr'⟩, hrun, heq⟩ := Option.map_eq_some_iff.mp h
      cases heq
      rw [isDriveable, isDriveable, phrase_nextDoc_isNegated hrun]
    | and children driver =>
      cases driver with
      | none =>
        cases h
        rfl
      | some i =>
        obtain ⟨⟨doc', children'⟩, hrun, heq⟩ := Option.map_eq_some_iff.mp h
        cases heq
        exact isDriveable_and (andLoop_isDriveable (fun _ _ _ => ih) i hrun)
    | or children docs pending =>
      obtain ⟨⟨children', docs'⟩, hrun, heq⟩ := Option.map_eq_some_iff.mp h
      cases heq
      apply isDriveable_or
      split at hrun
      · exact advanceAt_isDriveable (fun _ _ _ => ih) hrun
      · cases hrun
        rfl

mutual

theorem isDriveable_buildIsrTree (index : LoadedIndex) : ∀ ast t,
    buildIsrTree index ast = some t → isDriveable t = driveable ast
  | .term term, t, h => by
    rw [buildIsrTree] at h
    split at h <;> cases h <;> rfl
  | .and asts, t, h => by
    obtain ⟨children, hbuild, rfl⟩ := Option.map_eq_some_iff.mp h
    rw [isDriveable, driveable, anyDriveable_map, someDriveable_map,
      isDriveable_buildAll index asts children hbuild]
  | .or asts, t, h => by
    obtain ⟨⟨children', docs⟩, hprimed, rfl⟩ := Option.map_eq_some_iff.mp h
    obtain ⟨children, hbuild, hprime⟩ := Option.bind_eq_some_iff.mp hprimed
    have hsame := (primeAll_isDriveable (fun _ _ _ => nextDoc_isDriveable) hprime).trans
      (isDriveable_buildAll index asts children hbuild)
    have hlength : children'.length = asts.length := by
      rw [← List.length_map, hsame, List.length_map]
    rw [isDriveable, driveable, allDriveable_map, eachDriveable_map, hsame, hlength]

theorem isDriveable_buildAll (index : LoadedIndex) : ∀ asts ts,
    buildAll index asts = some ts → ts.map isDriveable = asts.map driveable
  | [], ts, h => by
    cases h
    rfl
  | ast :: asts, ts, h => by
    rw [buildAll] at h
    split at h
    · rename_i t ts' hhead hrest
      cases h
      rw [List.map_cons, List.map_cons, isDriveable_buildIsrTree index ast t hhead,
        isDriveable_buildAll index asts ts' hrest]
    · cases h

end

/-! ## The probes end -/

theorem probeLoop_ends (doc turns : Nat) (ground : Post) {first : IndexStreamReader}
    (rest : List IndexStreamReader) (hpending : first.hasPending = false)
    (hturns : first.currLoc.length < turns) :
    ∃ found streams, probeLoop doc turns ground first rest = some (found, streams) := by
  induction turns generalizing ground first rest with
  | zero => omega
  | succ turns ih =>
    rw [probeLoop]
    split
    · cases hcheck : checkAdjacency ground rest with
      | mk ok rest' =>
        cases ok with
        | true => exact ⟨_, _, rfl⟩
        | false =>
          rw [advance_eq hpending]
          simp only [Bool.false_eq_true, if_false]
          by_cases hended : Ended first
          · rw [(advanceBase_ended hended).1, if_pos (show noPost.doc = 0 from rfl)]
            exact ⟨_, _, rfl⟩
          · have hlt := advanceBase_length hended
            split
            · exact ⟨_, _, rfl⟩
            · exact ih _ _ ((hasPending_advanceBase first).trans hpending) (by omega)
    · exact ⟨_, _, rfl⟩

theorem hasPending_walkTo (doc turns : Nat) {r : IndexStreamReader} (h : r.hasPending = false) :
    (walkTo doc turns r).2.hasPending = false := by
  induction turns generalizing r with
  | zero => exact h
  | succ turns ih =>
    have hnext := (hasPending_advanceBase r).trans h
    rw [walkTo]
    split
    · simp only
      split
      · exact hnext
      · exact ih hnext
    · exact h

theorem hasPending_advanceTo (doc : Nat) (r : IndexStreamReader) :
    (advanceTo doc r).2.hasPending = false := by
  unfold advanceTo
  split
  · rfl
  · exact hasPending_walkTo doc _ rfl

theorem phrase_probe_ends (doc : Nat) (isr : PhraseISR) :
    ∃ found isr', isr.probe doc = some (found, isr') := by
  obtain ⟨isNegated, streams⟩ := isr
  unfold PhraseISR.probe
  cases streams with
  | nil => exact ⟨_, _, rfl⟩
  | cons first rest =>
    simp only
    split
    · exact ⟨_, _, rfl⟩
    · split
      · exact ⟨_, _, rfl⟩
      · obtain ⟨found, streams, hrun⟩ := probeLoop_ends doc _ (advanceTo doc first).1 rest
          (hasPending_advanceTo doc first) (Nat.lt_succ_self _)
        rw [hrun]
        exact ⟨_, _, rfl⟩

mutual

theorem probe_ends (doc : Nat) : ∀ t, ∃ found t', probe doc t = some (found, t')
  | .term isNegated isr => ⟨_, _, rfl⟩
  | .phrase isr => by
    obtain ⟨found, isr', hrun⟩ := phrase_probe_ends doc isr
    exact ⟨found, .phrase isr', by rw [probe, hrun, Option.map_some]⟩
  | .and children driver => by
    obtain ⟨ok, children', hrun⟩ := probeAll_ends doc children
    exact ⟨ok, .and children' driver, by rw [probe, hrun, Option.map_some]⟩
  | .or children docs pending => by
    obtain ⟨ok, children', hrun⟩ := probeAny_ends doc children
    exact ⟨ok, .or children' docs pending, by rw [probe, hrun, Option.map_some]⟩

theorem probeAll_ends (doc : Nat) : ∀ ts, ∃ ok ts', probeAll doc ts = some (ok, ts')
  | [] => ⟨_, _, rfl⟩
  | t :: ts => by
    obtain ⟨found, t', hprobe⟩ := probe_ends doc t
    obtain ⟨ok, ts', hrest⟩ := probeAll_ends doc ts
    rw [probeAll, hprobe, hrest]
    cases found with
    | false => exact ⟨_, _, rfl⟩
    | true => exact ⟨_, _, rfl⟩

theorem probeAny_ends (doc : Nat) : ∀ ts, ∃ ok ts', probeAny doc ts = some (ok, ts')
  | [] => ⟨_, _, rfl⟩
  | t :: ts => by
    obtain ⟨found, t', hprobe⟩ := probe_ends doc t
    obtain ⟨ok, ts', hrest⟩ := probeAny_ends doc ts
    rw [probeAny, hprobe, hrest]
    cases found with
    | false => exact ⟨_, _, rfl⟩
    | true => exact ⟨_, _, rfl⟩

end

/-- The other children are probed, and the driver stays as it is. -/
theorem probeOthers_ends (doc i : Nat) (ts : List QueryISR) :
    ∃ ok ts', probeOthers doc i ts = some (ok, ts') ∧ ts'[i]? = ts[i]? := by
  induction ts generalizing i with
  | nil => exact ⟨true, [], by rw [probeOthers], rfl⟩
  | cons t ts ih =>
    cases i with
    | zero =>
      obtain ⟨ok, ts', hrun⟩ := probeAll_ends doc ts
      exact ⟨ok, t :: ts', by rw [probeOthers, hrun, Option.map_some], rfl⟩
    | succ i =>
      obtain ⟨found, t', hprobe⟩ := probe_ends doc t
      obtain ⟨ok, ts', hrest, hget⟩ := ih i
      rw [probeOthers, hprobe, hrest]
      cases found with
      | false => exact ⟨_, _, rfl, rfl⟩
      | true => exact ⟨_, _, rfl, hget⟩

/-! ## The docs of a stream -/

section Streams

variable (c : Chunk)

/-- A stream of the word that stands at or after the doc. -/
def Past (word : Bytes) (doc : Nat) (r : IndexStreamReader) : Prop :=
  ∃ cur, Tracks r cur ∧ cur.left <:+ c.whole word ∧ r.hasPending = false ∧ doc ≤ cur.current.doc

theorem past_open (word : Bytes) : Past c word 0 (open' word c.index) :=
  ⟨_, tracks_open c word, List.suffix_refl _, (loc_open word c.index).2, Nat.zero_le _⟩

variable {c}

theorem doc_le_of_left {word : Bytes} {cur : Cursor Post} (h : cur.left <:+ c.whole word) :
    cur.current.doc ≤ DOCS_PER_INDEX_CHUNK := by
  rcases List.mem_cons.mp (h.subset List.mem_cons_self) with hnone | hmem
  · rw [hnone]
    exact Nat.zero_le _
  · exact (c.docs word _ hmem).2

theorem Past.advanceToNextDoc {word : Bytes} {doc : Nat} {r : IndexStreamReader}
    (h : Past c word doc r) :
    (isr.advanceToNextDoc r).1.doc = 0 ∨
      doc < (isr.advanceToNextDoc r).1.doc ∧
        (isr.advanceToNextDoc r).1.doc ≤ DOCS_PER_INDEX_CHUNK ∧
        Past c word (isr.advanceToNextDoc r).1.doc (isr.advanceToNextDoc r).2 := by
  obtain ⟨cur, htracks, hsuffix, _, hdoc⟩ := h
  have hoffset : r.docOffset = cur.current.doc := congrArg Post.doc htracks.current
  have hbound := doc_le_of_left hsuffix
  have hu : u32 (cur.current.doc + 1) = cur.current.doc + 1 := by
    refine u32_of_lt ?_
    simp only [DOCS_PER_INDEX_CHUNK] at hbound
    omega
  unfold isr.advanceToNextDoc
  rw [hoffset, hu]
  obtain ⟨hpost, hnext, hpending⟩ := advanceTo_tracks (cur.current.doc + 1) htracks
  have hseek := (seekFrom_suffix (fromDoc (cur.current.doc + 1)) cur.current cur.ahead).trans
    hsuffix
  cases hfound : fromDoc (cur.current.doc + 1) (cur.seek (fromDoc (cur.current.doc + 1))).current with
  | false =>
    rw [hpost, found_of_neg hfound]
    exact Or.inl rfl
  | true =>
    rw [found_of_pos hfound] at hpost
    rw [hpost]
    have hlater := fromDoc_iff.mp hfound
    exact Or.inr ⟨by omega, doc_le_of_left hseek, _, hnext, hseek, hpending, Nat.le_refl _⟩

theorem Past.advance {word : Bytes} {doc : Nat} {r : IndexStreamReader}
    (h : Past c word doc r) :
    (isr.advance r).1.doc = 0 ∨
      doc ≤ (isr.advance r).1.doc ∧ (isr.advance r).1.doc ≤ DOCS_PER_INDEX_CHUNK ∧
        Past c word (isr.advance r).1.doc (isr.advance r).2 ∧
        (isr.advance r).2.currLoc.length < r.currLoc.length := by
  obtain ⟨⟨a, l⟩, htracks, hsuffix, hpending, hdoc⟩ := h
  rw [advance_eq hpending]
  cases l with
  | nil =>
    rw [htracks.end.1]
    exact Or.inl rfl
  | cons p ps =>
    obtain ⟨hpost, hnext⟩ := htracks.step
    have hleft : Cursor.left ⟨p, ps⟩ <:+ c.whole word := (List.suffix_cons a _).trans hsuffix
    have hordered := (whole_ordered c word).sublist hsuffix.sublist
    have hle := before_doc_le ((List.pairwise_cons.mp hordered).1 p List.mem_cons_self)
    rw [hpost]
    exact Or.inr ⟨hdoc.trans hle, doc_le_of_left hleft,
      ⟨_, hnext, hleft, (hasPending_advanceBase r).trans hpending, Nat.le_refl _⟩,
      advanceBase_length htracks.ahead.1⟩

/-- The anchor of a phrase only moves forward, whatever the other streams say. -/
theorem nextDocLoop_past {word : Bytes} {doc : Nat} (turns : Nat) {ground : Post}
    {first : IndexStreamReader} (rest : List IndexStreamReader)
    (h : ground.doc = 0 ∧ 1 ≤ turns ∨
      doc < ground.doc ∧ ground.doc ≤ DOCS_PER_INDEX_CHUNK ∧ Past c word ground.doc first ∧
        first.currLoc.length + 2 ≤ turns) :
    ∃ doc' streams, nextDocLoop turns ground first rest = some (doc', streams) ∧
      (doc' = 0 ∨ doc < doc' ∧ doc' ≤ DOCS_PER_INDEX_CHUNK ∧
        ∃ first' rest', streams = first' :: rest' ∧ Past c word doc' first') := by
  induction turns generalizing ground first rest with
  | zero => omega
  | succ turns ih =>
    rw [nextDocLoop]
    rcases h with ⟨hground, _⟩ | ⟨hlt, hbound, hpast, hturns⟩
    · rw [if_pos hground]
      exact ⟨0, _, rfl, Or.inl rfl⟩
    · rw [if_neg (by omega)]
      have hstands : ground.doc = 0 ∨ doc < ground.doc ∧ ground.doc ≤ DOCS_PER_INDEX_CHUNK ∧
          ∃ first' rest', first :: rest = first' :: rest' ∧ Past c word ground.doc first' :=
        Or.inr ⟨hlt, hbound, first, rest, rfl, hpast⟩
      split
      · exact ⟨_, _, rfl, hstands⟩
      · cases hcheck : checkAdjacency ground rest with
        | mk ok rest' =>
          cases ok with
          | true => exact ⟨_, _, rfl, Or.inr ⟨hlt, hbound, first, rest', rfl, hpast⟩⟩
          | false =>
            simp only [Bool.false_eq_true, if_false]
            apply ih
            rcases hpast.advance with hnone | ⟨hle, hbound', hpast', hfewer⟩
            · exact Or.inl ⟨hnone, by omega⟩
            · exact Or.inr ⟨Nat.lt_of_lt_of_le hlt hle, hbound', hpast', by omega⟩

end Streams

/-! ## The least doc -/

theorem lesserDoc_spec (m d : Nat) :
    (lesserDoc m d = m ∨ lesserDoc m d = d) ∧ (m ≠ 0 → lesserDoc m d ≠ 0 ∧ lesserDoc m d ≤ m) ∧
      (d ≠ 0 → lesserDoc m d ≠ 0 ∧ lesserDoc m d ≤ d) := by
  unfold lesserDoc
  split
  · omega
  · split
    · omega
    · omega

theorem foldl_lesserDoc (docs : List Nat) (m : Nat) :
    (docs.foldl lesserDoc m = m ∨ docs.foldl lesserDoc m ∈ docs) ∧
      (m ≠ 0 → docs.foldl lesserDoc m ≠ 0 ∧ docs.foldl lesserDoc m ≤ m) ∧
      ∀ d ∈ docs, d ≠ 0 → docs.foldl lesserDoc m ≤ d := by
  induction docs generalizing m with
  | nil => exact ⟨Or.inl rfl, fun hm => ⟨hm, Nat.le_refl m⟩, fun d hd => by cases hd⟩
  | cons d docs ih =>
    obtain ⟨hmem, hle, hall⟩ := ih (lesserDoc m d)
    obtain ⟨hfrom, hm, hd⟩ := lesserDoc_spec m d
    rw [List.foldl_cons]
    refine ⟨?_, fun hpos => ?_, List.forall_mem_cons.mpr ⟨fun hpos => ?_, hall⟩⟩
    · rcases hmem with heq | hmem
      · rw [heq]
        exact hfrom.imp_right fun h => List.mem_cons.mpr (Or.inl h)
      · exact Or.inr (List.mem_cons_of_mem d hmem)
    · have hleast := hle (hm hpos).1
      exact ⟨hleast.1, hleast.2.trans (hm hpos).2⟩
    · exact (hle (hd hpos).1).2.trans (hd hpos).2

theorem minDoc_mem {docs : List Nat} (h : minDoc docs ≠ 0) : minDoc docs ∈ docs :=
  (foldl_lesserDoc docs 0).1.resolve_left h

theorem minDoc_le {docs : List Nat} {d : Nat} (hmem : d ∈ docs) (hd : d ≠ 0) :
    minDoc docs ≤ d :=
  (foldl_lesserDoc docs 0).2.2 d hmem hd

/-! ## The docs of a tree -/

section Trees

variable (c : Chunk)

/-- The doc that a child of an OR stands in is none, or it is not before the first that the OR may
still give and the child gives only later ones. -/
def Waits (given : Nat → QueryISR → Prop) (lowest : Nat) (t : QueryISR) (doc : Nat) : Prop :=
  doc = 0 ∨ lowest ≤ doc ∧ doc ≤ DOCS_PER_INDEX_CHUNK ∧ given doc t

/-- A tree of at most so many levels gives only docs after one. -/
def GivesAfter : Nat → Nat → QueryISR → Prop
  | 0, _, _ => False
  | _ + 1, doc, .term _ isr => ∃ word, Past c word doc isr
  | _ + 1, doc, .phrase isr =>
    isr.streams = [] ∨ ∃ word first rest, isr.streams = first :: rest ∧ Past c word doc first
  | _ + 1, _, .and _ none => True
  | levels + 1, doc, .and children (some i) =>
    ∃ driver, children[i]? = some driver ∧ GivesAfter levels doc driver
  | levels + 1, doc, .or children docs pending =>
    (pending ≠ 0 → doc ≤ pending) ∧
      List.Forall₂ (Waits (GivesAfter levels) (if pending = 0 then doc + 1 else pending))
        children docs

/-- What a call of `next_doc` gives. -/
def Gives (given : Nat → QueryISR → Prop) (doc : Nat) (result : Option (Nat × QueryISR)) : Prop :=
  ∃ doc' t, result = some (doc', t) ∧
    (doc' = 0 ∨ doc < doc' ∧ doc' ≤ DOCS_PER_INDEX_CHUNK ∧ given doc' t)

variable {c} {given : Nat → QueryISR → Prop}

theorem GivesAfter.mono {levels levels' doc : Nat} {t : QueryISR} (h : GivesAfter c levels doc t)
    (hle : levels ≤ levels') : GivesAfter c levels' doc t := by
  induction levels generalizing levels' doc t with
  | zero => cases h
  | succ levels ih =>
    obtain ⟨levels', rfl⟩ : ∃ n, levels' = n + 1 := ⟨levels' - 1, by omega⟩
    have hle' := Nat.le_of_succ_le_succ hle
    cases t with
    | term isNegated isr => exact h
    | phrase isr => exact h
    | and children driver =>
      cases driver with
      | none => trivial
      | some i =>
        obtain ⟨driver, hdriver, hgives⟩ := h
        exact ⟨driver, hdriver, ih hgives hle'⟩
    | or children docs pending =>
      refine ⟨h.1, h.2.imp fun t doc hwaits => ?_⟩
      exact hwaits.imp_right fun ⟨hlow, hbound, hgives⟩ => ⟨hlow, hbound, ih hgives hle'⟩

/-- The least of the docs is the next one, and all children are at it or behind it. -/
theorem minDoc_waits {lowest : Nat} {children : List QueryISR} {docs : List Nat}
    (h : List.Forall₂ (Waits given lowest) children docs) :
    minDoc docs = 0 ∨ lowest ≤ minDoc docs ∧ minDoc docs ≤ DOCS_PER_INDEX_CHUNK ∧
      List.Forall₂ (Waits given (minDoc docs)) children docs := by
  by_cases hnone : minDoc docs = 0
  · exact Or.inl hnone
  · obtain ⟨i, hi, hget⟩ := List.getElem_of_mem (minDoc_mem hnone)
    have hmin := h.get (h.length_eq ▸ hi) hi
    simp only [List.get_eq_getElem, hget] at hmin
    obtain ⟨hle, hbound, _⟩ := hmin.resolve_left hnone
    refine Or.inr ⟨hle, hbound, List.forall₂_iff_zip.mpr ⟨h.length_eq, fun hmem => ?_⟩⟩
    rcases List.forall₂_zip h hmem with hzero | ⟨hlow, hwaits⟩
    · exact Or.inl hzero
    · rename_i doc
      by_cases hdoc : doc = 0
      · exact Or.inl hdoc
      · exact Or.inr ⟨minDoc_le (List.of_mem_zip hmem).2 hdoc, hwaits⟩

/-- The next doc of an OR whose children went on. -/
theorem or_gives {lowest : Nat} {children : List QueryISR} {docs : List Nat} {doc : Nat}
    {levels : Nat} (hdoc : doc < lowest)
    (h : List.Forall₂ (Waits (GivesAfter c levels) lowest) children docs) :
    Gives (GivesAfter c (levels + 1)) doc
      (some (minDoc docs, .or children docs (minDoc docs))) := by
  refine ⟨_, _, rfl, (minDoc_waits h).imp_right ?_⟩
  rintro ⟨hle, hbound, hwaits⟩
  refine ⟨Nat.lt_of_lt_of_le hdoc hle, hbound, fun _ => Nat.le_refl _, ?_⟩
  rwa [if_neg (by omega)]

variable {next : QueryISR → Option (Nat × QueryISR)}
  (hnext : ∀ doc t, given doc t → Gives given doc (next t))
include hnext

theorem andLoop_gives (i : Nat) {turns doc : Nat} {children : List QueryISR} {driver : QueryISR}
    (hdriver : children[i]? = some driver) (h : given doc driver)
    (hturns : DOCS_PER_INDEX_CHUNK - doc < turns) :
    ∃ doc' children', andLoop next i turns children = some (doc', children') ∧
      (doc' = 0 ∨ doc < doc' ∧ doc' ≤ DOCS_PER_INDEX_CHUNK ∧
        ∃ driver', children'[i]? = some driver' ∧ given doc' driver') := by
  induction turns generalizing doc children driver with
  | zero => omega
  | succ turns ih =>
    obtain ⟨candidate, driver', hrun, hgives⟩ := hnext doc driver h
    have hi : i < children.length := (List.getElem?_eq_some_iff.mp hdriver).1
    have hset : (children.set i driver')[i]? = some driver' := List.getElem?_set_self hi
    simp only [andLoop, hdriver, Option.bind_some, hrun]
    rcases hgives with hnone | ⟨hlt, hbound, hgiven⟩
    · rw [if_pos hnone]
      exact ⟨0, _, rfl, Or.inl rfl⟩
    · rw [if_neg (by omega)]
      obtain ⟨ok, children', hprobe, hget⟩ := probeOthers_ends candidate i (children.set i driver')
      rw [hprobe]
      rw [hset] at hget
      cases ok with
      | true => exact ⟨candidate, children', rfl, Or.inr ⟨hlt, hbound, driver', hget, hgiven⟩⟩
      | false =>
        obtain ⟨doc', children'', hrest, hlater⟩ := ih hget hgiven (by omega)
        refine ⟨doc', children'', hrest, hlater.imp_right ?_⟩
        exact fun h => ⟨Nat.lt_trans hlt h.1, h.2⟩

/-- After the children in the doc went on, all children are behind it. -/
theorem advanceAt_waits {pending : Nat} {children : List QueryISR} {docs : List Nat}
    (hpending : pending ≠ 0) (h : List.Forall₂ (Waits given pending) children docs) :
    ∃ children' docs', advanceAt next pending children docs = some (children', docs') ∧
      List.Forall₂ (Waits given (pending + 1)) children' docs' := by
  induction h with
  | nil => exact ⟨[], [], rfl, List.Forall₂.nil⟩
  | @cons t doc children docs hwaits _ ih =>
    obtain ⟨children', docs', hrest, hforall⟩ := ih
    rw [advanceAt, hrest]
    by_cases heq : doc = pending
    · subst heq
      obtain ⟨doc', t', hrun, hgives⟩ := hnext doc t (hwaits.resolve_left hpending).2.2
      rw [if_pos rfl, hrun]
      exact ⟨_, _, rfl, List.Forall₂.cons hgives hforall⟩
    · have hlater : Waits given (pending + 1) t doc :=
        hwaits.imp_right fun h => ⟨by omega, h.2⟩
      rw [if_neg heq]
      exact ⟨_, _, rfl, List.Forall₂.cons hlater hforall⟩

theorem primeAll_waits {children : List QueryISR} (h : ∀ t ∈ children, given 0 t) :
    ∃ children' docs, primeAll next children = some (children', docs) ∧
      List.Forall₂ (Waits given 1) children' docs := by
  induction children with
  | nil => exact ⟨[], [], rfl, List.Forall₂.nil⟩
  | cons t children ih =>
    obtain ⟨ht, hchildren⟩ := List.forall_mem_cons.mp h
    obtain ⟨doc, t', hrun, hgives⟩ := hnext 0 t ht
    obtain ⟨children', docs, hrest, hforall⟩ := ih hchildren
    rw [primeAll, hrun, hrest]
    exact ⟨_, _, rfl, List.Forall₂.cons hgives hforall⟩

end Trees

/-- The step lemma of the tree: every call of `next_doc` gives a later doc or none. -/
theorem nextDoc_gives (c : Chunk) (levels : Nat) (doc : Nat) (t : QueryISR)
    (h : GivesAfter c levels doc t) : Gives (GivesAfter c levels) doc (nextDoc levels t) := by
  induction levels generalizing doc t with
  | zero => cases h
  | succ levels ih =>
    cases t with
    | term isNegated isr =>
      obtain ⟨word, hpast⟩ := h
      refine ⟨_, _, rfl, hpast.advanceToNextDoc.imp_right ?_⟩
      rintro ⟨hlt, hbound, hnext⟩
      exact ⟨hlt, hbound, word, hnext⟩
    | phrase isr =>
      obtain ⟨isNegated, streams⟩ := isr
      rw [nextDoc, PhraseISR.nextDoc]
      rcases h with hnil | ⟨word, first, rest, hstreams, hpast⟩
      · simp only [show streams = [] from hnil]
        exact ⟨0, _, rfl, Or.inl rfl⟩
      · simp only [show streams = first :: rest from hstreams]
        obtain ⟨doc', streams', hrun, hgives⟩ := nextDocLoop_past
          ((advanceToNextDoc first).2.currLoc.length + 2) rest
          (hpast.advanceToNextDoc.imp (fun h => ⟨h, Nat.le_add_left 1 _⟩)
            fun h => ⟨h.1, h.2.1, h.2.2, Nat.le_refl _⟩)
        rw [hrun]
        refine ⟨doc', .phrase ⟨isNegated, streams'⟩, rfl, hgives.imp_right ?_⟩
        rintro ⟨hlt, hbound, hstands⟩
        exact ⟨hlt, hbound, Or.inr ⟨word, hstands⟩⟩
    | and children driver =>
      cases driver with
      | none => exact ⟨0, _, rfl, Or.inl rfl⟩
      | some i =>
        obtain ⟨driver, hdriver, hgiven⟩ := h
        obtain ⟨doc', children', hrun, hgives⟩ :=
          andLoop_gives ih i hdriver hgiven (Nat.lt_succ_of_le (Nat.sub_le _ _))
        refine ⟨doc', .and children' (some i), ?_, hgives⟩
        rw [nextDoc, hrun, Option.map_some]
    | or children docs pending =>
      obtain ⟨hpending, hwaits⟩ := h
      rw [nextDoc]
      by_cases hzero : pending = 0
      · rw [if_pos hzero] at hwaits
        rw [if_neg (fun hne => hne hzero)]
        exact or_gives (Nat.lt_succ_self doc) hwaits
      · rw [if_neg hzero] at hwaits
        obtain ⟨children', docs', hrun, hforall⟩ := advanceAt_waits ih hzero hwaits
        rw [if_pos hzero, hrun]
        exact or_gives (Nat.lt_succ_of_le (hpending hzero)) hforall

theorem foldl_pickDriver (children : List (QueryISR × Nat)) (best : Option Nat × Nat) :
    (children.foldl pickDriver best).1 = best.1 ∨
      ∃ child ∈ children, (children.foldl pickDriver best).1 = some child.2 := by
  induction children generalizing best with
  | nil => exact Or.inl rfl
  | cons child children ih =>
    rw [List.foldl_cons]
    rcases ih (pickDriver best child) with hsame | ⟨child', hmem, hpicked⟩
    · rw [hsame]
      unfold pickDriver
      simp only
      split
      · exact Or.inr ⟨child, List.mem_cons_self, rfl⟩
      · exact Or.inl rfl
    · exact Or.inr ⟨child', List.mem_cons_of_mem _ hmem, hpicked⟩

/-- The driver of an AND is one of its children. -/
theorem driverOf_child {children : List QueryISR} {i : Nat} (h : driverOf children = some i) :
    ∃ child, children[i]? = some child := by
  unfold driverOf at h
  rcases foldl_pickDriver children.zipIdx (none, UINT32_MAX) with hnone | ⟨child, hmem, hpicked⟩
  · rw [hnone] at h
    cases h
  · rw [hpicked] at h
    cases h
    exact ⟨child.1, List.mem_zipIdx_iff_getElem?.mp hmem⟩

mutual

/-- A new tree has given no doc. -/
theorem buildIsrTree_gives (c : Chunk) : ∀ ast levels, depth ast ≤ levels →
    ∃ root, buildIsrTree c.index ast = some root ∧ GivesAfter c levels 0 root
  | .term t, levels, h => by
    obtain ⟨levels, rfl⟩ : ∃ n, levels = n + 1 := ⟨levels - 1, by rw [depth] at h; omega⟩
    rw [buildIsrTree]
    split
    · refine ⟨_, rfl, ?_⟩
      cases hwords : phraseWords t.val with
      | nil => exact Or.inl (by rw [PhraseISR.new, hwords, List.map_nil])
      | cons word words =>
        refine Or.inr ⟨word, open' word c.index, words.map fun w => open' w c.index, ?_,
          past_open c word⟩
        rw [PhraseISR.new, hwords, List.map_cons]
    · exact ⟨_, rfl, t.val, past_open c t.val⟩
  | .and children, levels, h => by
    obtain ⟨levels, rfl⟩ : ∃ n, levels = n + 1 := ⟨levels - 1, by rw [depth] at h; omega⟩
    obtain ⟨roots, hroots, hall⟩ := buildAll_gives c children levels (Nat.le_of_succ_le_succ h)
    refine ⟨.and roots (driverOf roots), by rw [buildIsrTree, hroots, Option.map_some], ?_⟩
    cases hdriver : driverOf roots with
    | none => trivial
    | some i =>
      obtain ⟨root, hroot⟩ := driverOf_child hdriver
      exact ⟨root, hroot, hall root (List.mem_of_getElem? hroot)⟩
  | .or children, levels, h => by
    obtain ⟨levels, rfl⟩ : ∃ n, levels = n + 1 := ⟨levels - 1, by rw [depth] at h; omega⟩
    have hle : depthAll children ≤ levels := Nat.le_of_succ_le_succ h
    obtain ⟨roots, hroots, hall⟩ := buildAll_gives c children _ (Nat.le_refl _)
    obtain ⟨roots', docs, hrun, hwaits⟩ := primeAll_waits (nextDoc_gives c _) hall
    rw [buildIsrTree, hroots, Option.bind_some, hrun]
    have hgives : GivesAfter c (depthAll children + 1) 0 (.or roots' docs 0) :=
      ⟨fun hne => absurd rfl hne, hwaits⟩
    exact ⟨_, rfl, hgives.mono h⟩

theorem buildAll_gives (c : Chunk) : ∀ asts levels, depthAll asts ≤ levels →
    ∃ roots, buildAll c.index asts = some roots ∧ ∀ t ∈ roots, GivesAfter c levels 0 t
  | [], levels, h => ⟨[], rfl, fun t ht => by cases ht⟩
  | ast :: asts, levels, h => by
    obtain ⟨hast, hasts⟩ := max_le_iff.mp h
    obtain ⟨root, hroot, hgives⟩ := buildIsrTree_gives c ast levels hast
    obtain ⟨roots, hroots, hall⟩ := buildAll_gives c asts levels hasts
    rw [buildAll, hroot, hroots]
    exact ⟨_, rfl, List.forall_mem_cons.mpr ⟨hgives, hall⟩⟩

end

/-! ## A whole run -/

/-- The docs that the calls of `next_doc` give, until one gives 0. -/
def nextDocs (levels : Nat) : Nat → QueryISR → Option (List Nat)
  | 0, _ => none
  | calls + 1, root =>
    match nextDoc levels root with
    | none => none
    | some (doc, root) => if doc = 0 then some [] else (nextDocs levels calls root).map (doc :: ·)

/-- The run lemma of the tree. -/
theorem nextDocs_increasing (c : Chunk) (levels calls : Nat) {doc : Nat} {root : QueryISR}
    (h : GivesAfter c levels doc root) (hcalls : DOCS_PER_INDEX_CHUNK - doc < calls) :
    ∃ docs, nextDocs levels calls root = some docs ∧ docs.Pairwise (· < ·) ∧
      ∀ d ∈ docs, doc < d ∧ d ≤ DOCS_PER_INDEX_CHUNK := by
  induction calls generalizing doc root with
  | zero => omega
  | succ calls ih =>
    obtain ⟨next, root', hrun, hgives⟩ := nextDoc_gives c levels doc root h
    rw [nextDocs, hrun]
    simp only
    rcases hgives with hnone | ⟨hlt, hbound, hlater⟩
    · rw [if_pos hnone]
      exact ⟨[], rfl, List.Pairwise.nil, fun d hd => by cases hd⟩
    · obtain ⟨docs, hrest, hincreasing, hbetween⟩ := ih hlater (by omega)
      rw [if_neg (by omega), hrest]
      refine ⟨next :: docs, rfl, ?_, ?_⟩
      · exact List.pairwise_cons.mpr ⟨fun d hd => (hbetween d hd).1, hincreasing⟩
      · refine List.forall_mem_cons.mpr ⟨⟨hlt, hbound⟩, fun d hd => ?_⟩
        exact ⟨Nat.lt_trans hlt (hbetween d hd).1, (hbetween d hd).2⟩

end seamus.query_isr
