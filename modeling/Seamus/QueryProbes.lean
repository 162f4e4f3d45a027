-- The probes of leaves that a run of a query makes, and when one of them comes too late: a leaf
-- has one cursor that only goes forward, and a probe of a negated leaf takes what was passed for
-- absent.
import Seamus.QueryLeaves

open cursor seamus.index seamus.isr seamus.loaded_index seamus.post_streams seamus.phrase_query
  seamus.expressions seamus.query_grammar seamus.query_isr seamus.query_leaves

namespace seamus.query_probes

/-! ## The probes -/

/-- A call of `probe` on a leaf, with the leaf as it stands before the call. -/
structure Probe where
  term : TermData
  doc : Nat
  leaf : QueryISR

mutual

/-- The probes of leaves in a call of `probe`. -/
def probed (doc : Nat) : ASTNode → QueryISR → List Probe
  | .term t, leaf => [⟨t, doc, leaf⟩]
  | .and asts, .and children _ => probedAll doc asts children
  | .or asts, .or children _ _ => probedAny doc asts children
  | _, _ => []

def probedAll (doc : Nat) : List ASTNode → List QueryISR → List Probe
  | ast :: asts, c :: cs =>
    probed doc ast c ++ match probe doc c with
      | some (true, _) => probedAll doc asts cs
      | _ => []
  | _, _ => []

def probedAny (doc : Nat) : List ASTNode → List QueryISR → List Probe
  | ast :: asts, c :: cs =>
    probed doc ast c ++ match probe doc c with
      | some (false, _) => probedAny doc asts cs
      | _ => []
  | _, _ => []

end

/-- Those of the children of an AND but the driver. -/
def probedOthers (doc : Nat) : Nat → List ASTNode → List QueryISR → List Probe
  | 0, _ :: asts, _ :: cs => probedAll doc asts cs
  | i + 1, ast :: asts, c :: cs =>
    probed doc ast c ++ match probe doc c with
      | some (true, _) => probedOthers doc i asts cs
      | _ => []
  | _, _, _ => []

section NextDoc

variable (next : QueryISR → Option (Nat × QueryISR)) (made : ASTNode → QueryISR → List Probe)

def andProbes (i : Nat) (asts : List ASTNode) : Nat → List QueryISR → List Probe
  | 0, _ => []
  | turns + 1, children =>
    match asts[i]?, children[i]? with
    | some ast, some c =>
      made ast c ++ match next c with
        | some (candidate, driver) =>
          if candidate = 0 then []
          else
            let children := children.set i driver
            probedOthers candidate i asts children ++
              match probeOthers candidate i children with
              | some (false, children) => andProbes i asts turns children
              | _ => []
        | none => []
    | _, _ => []

def advanceProbes (pending : Nat) : List ASTNode → List QueryISR → List Nat → List Probe
  | ast :: asts, c :: cs, d :: ds =>
    (if d = pending then made ast c else []) ++ advanceProbes pending asts cs ds
  | _, _, _ => []

def primeProbes : List ASTNode → List QueryISR → List Probe
  | ast :: asts, c :: cs => made ast c ++ primeProbes asts cs
  | _, _ => []

end NextDoc

/-- The probes of leaves in a call of `next_doc`. -/
def nextProbes : Nat → ASTNode → QueryISR → List Probe
  | levels + 1, .and asts, .and children (some i) =>
    andProbes (nextDoc levels) (nextProbes levels) i asts (DOCS_PER_INDEX_CHUNK + 1) children
  | levels + 1, .or asts, .or children docs pending =>
    if pending ≠ 0 then advanceProbes (nextProbes levels) pending asts children docs else []
  | _, _, _ => []

mutual

/-- The probes of leaves while the tree is built: an OR asks its children for their first docs. -/
def buildProbes (index : LoadedIndex) : ASTNode → List Probe
  | .term _ => []
  | .and asts => buildAllProbes index asts
  | .or asts =>
    buildAllProbes index asts ++ match buildAll index asts with
      | some children => primeProbes (nextProbes (depthAll asts)) asts children
      | none => []

def buildAllProbes (index : LoadedIndex) : List ASTNode → List Probe
  | [] => []
  | ast :: asts => buildProbes index ast ++ buildAllProbes index asts

end

/-- The probes of leaves in the calls of `next_doc` until one gives 0. -/
def runProbes (levels : Nat) (ast : ASTNode) : Nat → QueryISR → List Probe
  | 0, _ => []
  | calls + 1, root =>
    nextProbes levels ast root ++ match nextDoc levels root with
      | some (doc, root) => if doc = 0 then [] else runProbes levels ast calls root
      | none => []

/-- The probes of leaves in a query: while the tree is built and while it gives its docs. -/
def queryProbes (index : LoadedIndex) (ast : ASTNode) : List Probe :=
  buildProbes index ast ++ match buildIsrTree index ast with
    | some root => runProbes (depth ast) ast (DOCS_PER_INDEX_CHUNK + 1) root
    | none => []

/-! ## Probes in time -/

def streamsOf : QueryISR → List IndexStreamReader
  | .term _ isr => [isr]
  | .phrase isr => isr.streams
  | _ => []

/-- The matches of a leaf, without its negation, in a doc. -/
def matchesIn (c : Chunk) (t : TermData) (doc : Nat) : List Post :=
  match leafWords t with
  | [] => []
  | word :: others => (c.postings word).filter fun p => p.doc = doc && hit c others p

/-- A negated leaf that has matches in the doc has not passed the last of them. -/
def Probe.InTime (c : Chunk) (p : Probe) : Prop :=
  p.term.isNegated = true → matchesIn c p.term p.doc ≠ [] →
    ∃ first ∈ (streamsOf p.leaf).head?, ∃ m ∈ matchesIn c p.term p.doc, ¬m.Before (loc first)

instance (c : Chunk) (p : Probe) : Decidable (p.InTime c) := by
  unfold Probe.InTime
  infer_instance

end seamus.query_probes
